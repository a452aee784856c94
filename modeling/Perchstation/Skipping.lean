import Perchstation.Poller

/-!
# Skipping — the poller's skip set over whole runs

A clip is retired once the poller has done with it: it is past its delivery, no poll of it is due and
no pollable sidecar of it is left.  Every clip of the skip set is retired, and a retired clip stays
so whatever the parties do; so the set only saves reading.
-/

namespace Perchstation

open Resumption QueueStore ClassifyPoller

/-- The request writes or moves a sidecar of `c` in `delivered/`. -/
def Req.Rewrites (c : ClipId) : Req → Prop
  | .write p _ => p.inDir .delivered ∧ p.fileStem = c
  | .rename _ p => p.inDir .delivered ∧ p.fileStem = c
  | .copy _ p => p.inDir .delivered ∧ p.fileStem = c
  | _ => False

namespace PollEvent

/-- The poller asked the server for the clip's task. -/
def Polls (c : ClipId) : PollEvent → Prop
  | .polled e _ => e.clipId = c
  | _ => False

/-- The poller wrote the clip's sidecar. -/
def Rewrites (c : ClipId) : PollEvent → Prop
  | .scanned asked => ∃ r ∈ asked, r.Rewrites c
  | .polled _ asked => ∃ r ∈ asked, r.Rewrites c
  | _ => False

/-- A policy call has removed the clip. -/
def Evicts (c : ClipId) : PollEvent → Prop
  | .beside ev => ev.Evicts c
  | _ => False

end PollEvent

/-- The poller has done with the clip. -/
structure Retired (p : Polling) (c : ClipId) : Prop where
  passed : Passed p.station c
  used : c ∈ p.station.used
  due : ∀ e ∈ p.due, e.clipId ≠ c
  settled : ∀ e, p.station.deliveredFile c = some (.sidecar e) → isPollable e = false

/-- The entry is as the scan read it, unless it was evicted since. -/
structure Due (st : Station) (e : ClipQueueEntry) : Prop where
  pollable : isPollable e = true
  passed : Passed st e.clipId
  used : e.clipId ∈ st.used
  file : st.deliveredFile e.clipId = none ∨ st.deliveredFile e.clipId = some (.sidecar e)

structure PollInv (p : Polling) : Prop where
  orderly : UsedOnce p.station
  retired : ∀ c ∈ p.station.seen, Retired p c
  nodup : (p.due.map ClipQueueEntry.clipId).Nodup
  due : ∀ e ∈ p.due, Due p.station e

/-- The poller of a process that has just started. -/
structure Polling.Fresh (p : Polling) : Prop where
  orderly : UsedOnce p.station
  seen : p.station.seen = ∅
  due : p.due = []

variable {cfg : Config} {p p' : Polling} {ev : PollEvent} {c : ClipId} {st : Station} {t : Fs}
  {e : ClipQueueEntry} {r : Req}

theorem Polling.Fresh.inv (h : p.Fresh) : PollInv p := by
  refine ⟨h.orderly, fun c hc => ?_, ?_, fun e he => ?_⟩
  · rw [h.seen] at hc
    simp at hc
  · rw [h.due]
    exact List.nodup_nil
  · rw [h.due] at he
    cases he

theorem rewrites_of_mem (hr : r ∈ rewriteRequests e) : r.Rewrites c ↔ e.clipId = c := by
  rcases List.mem_pair.mp hr with rfl | rfl <;> simp [Req.Rewrites, Path.inDir, Path.fileStem]

/-! ## What a step does to a clip -/

/-- A step leaves a retired clip alone, up to its removal. -/
def LeavesRetired (p : Polling) (ev : PollEvent) (p' : Polling) : Prop :=
  ∀ c, Retired p c → Retired p' c ∧ ¬ ev.Polls c ∧ ¬ ev.Rewrites c ∧
    (p'.station.deliveredFile c = p.station.deliveredFile c ∨ p'.station.deliveredFile c = none)

/-- The records agree up to the two fields of the poller. -/
def SameButPolled (e e' : ClipQueueEntry) : Prop :=
  e' = { e with lastClassifyStatus := e'.lastClassifyStatus, classifyLostAt := e'.classifyLostAt }

/-- Between scan and poll, poll and prune, only `delivered/` changes. -/
theorem UsedOnce.of_delivered (seen : Finset ClipId) (ho : UsedOnce st) (hn : Named t)
    (hd : AllDecode t)
    (hother : ∀ d c, d ≠ .delivered → t.get (.queue d c .json) = st.fs.get (.queue d c .json))
    (hdel : ∀ c, t.get (.queue .delivered c .json) ≠ none → Passed st c ∧ c ∈ st.used) :
    UsedOnce { st with fs := t, seen := seen } ∧
      ∀ c, Passed st c → Passed { st with fs := t, seen := seen } c := by
  have hpassed : ∀ c, Passed st c → Passed { st with fs := t, seen := seen } c := fun c hp =>
    ⟨(hother .pending c (by simp)).trans hp.pending,
      (hother .inflight c (by simp)).trans hp.inflight, hp.awaiting⟩
  refine ⟨⟨hn, hd, fun c hc => hpassed c (hdel c hc).1, fun e he => ?_, fun c hc => ?_⟩, hpassed⟩
  · exact (hother .pending _ (by simp)).trans (ho.taken e he)
  · refine ⟨hpassed c (ho.unused c hc).1, ?_⟩
    by_contra hne
    exact hc (hdel c hne).2

/-- A clip with a sidecar in `delivered/` is past its delivery and was handed out. -/
theorem UsedOnce.delivered (ho : UsedOnce st) (h : st.deliveredFile c ≠ none) :
    Passed st c ∧ c ∈ st.used := by
  refine ⟨ho.apart c h, ?_⟩
  by_contra hc
  exact h (ho.unused c hc).2

theorem PollInv.beside {st' : Station} {due : List ClipQueueEntry} {ev : Event}
    (hi : PollInv ⟨st, due⟩) (h : Aside st ev st') :
    PollInv ⟨st', due⟩ ∧ LeavesRetired ⟨st, due⟩ (.beside ev) ⟨st', due⟩ := by
  have hfile : ∀ c, Passed st c → c ∈ st.used → Passed st' c ∧
      (st'.deliveredFile c = st.deliveredFile c ∨ st'.deliveredFile c = none) := by
    intro c hp hu
    obtain ⟨hp', hf⟩ := h.passed c hp fun _ => hu
    exact ⟨hp', hf.imp And.left And.left⟩
  have hret : LeavesRetired ⟨st, due⟩ (.beside ev) ⟨st', due⟩ := by
    intro c hc
    obtain ⟨hp, hf⟩ := hfile c hc.passed hc.used
    refine ⟨⟨hp, h.used hc.used, hc.due, fun e he => ?_⟩, fun h => h, fun h => h, hf⟩
    rcases hf with hf | hf
    · exact hc.settled e (hf.symm.trans he)
    · cases hf.symm.trans he
  refine ⟨⟨h.orderly hi.orderly, fun c hc => ?_, hi.nodup, fun e he => ?_⟩, hret⟩
  · refine (hret c (hi.retired c ?_)).1
    exact h.seen ▸ hc
  · obtain ⟨hpoll, hp, hu, hf⟩ := hi.due e he
    obtain ⟨hp', hf'⟩ := hfile _ hp hu
    refine ⟨hpoll, hp', h.used hu, ?_⟩
    rcases hf' with hf' | hf'
    · rcases hf with hf | hf
      · exact Or.inl (hf'.trans hf)
      · exact Or.inr (hf'.trans hf)
    · exact Or.inl hf'

theorem PollInv.skipsSettled (hi : PollInv p) : SkipsSettled p.station.fs p.station.seen :=
  fun c hc e he => (hi.retired c hc).settled e he

theorem PollInv.scan {v : Finset ClipId × Except PollerError (List ClipQueueEntry)}
    {readings readings' : List DateTime} {asked : List Req} (hi : PollInv ⟨st, []⟩)
    (h : Runs Watched (scanNonTerminal st.seen) ((st.fs, readings), []) v
      ((t, readings'), asked)) :
    PollInv ⟨{ st with fs := t, seen := v.1 }, handed v.2⟩ ∧
      LeavesRetired ⟨st, []⟩ (.scanned asked) ⟨{ st with fs := t, seen := v.1 }, handed v.2⟩ := by
  have ho := hi.orderly
  obtain ⟨l, es, hl, hv, hs, hrep⟩ := scanned_of_watched ho.named ho.decodes h
  rw [hv]
  have hdel : ∀ c, t.get (.queue .delivered c .json) ≠ none → Passed st c ∧ c ∈ st.used :=
    fun c hc => ho.delivered fun hnone => hc (hrep.absent hnone)
  obtain ⟨ho', hpassed⟩ := ho.of_delivered v.1 (hs.effect.named ho.named)
    (hrep.allDecode ho.decodes) (fun d c hd => hrep.other hd c) hdel
  -- an entry handed on is pollable on disk, so it is of no retired clip
  have hdue : ∀ c, (∀ e, t.get (.queue .delivered c .json) = some (.sidecar e) →
      isPollable e = false) → ∀ e ∈ es, e.clipId ≠ c := by
    rintro c hset e he rfl
    obtain ⟨-, hpoll, hget⟩ := hs.entry e he
    rw [hset e hget] at hpoll
    cases hpoll
  -- the scan writes nothing of a retired clip
  have hret : LeavesRetired ⟨st, []⟩ (.scanned asked) ⟨{ st with fs := t, seen := v.1 }, es⟩ := by
    intro c hc
    have hsame : t.get (.queue .delivered c .json) = st.fs.get (.queue .delivered c .json) := by
      rcases hrep.changed .delivered c with h' | ⟨e, at_, -, -, hpoll, hf, -⟩
      · exact h'
      · rw [hc.settled e hf] at hpoll
        cases hpoll
    have hset : ∀ e, t.get (.queue .delivered c .json) = some (.sidecar e) →
        isPollable e = false := fun e he => hc.settled e (hsame.symm.trans he)
    refine ⟨⟨hpassed c hc.passed, hc.used, hdue c hset, hset⟩, fun h => h, ?_, Or.inl hsame⟩
    rintro ⟨r, hr, hrew⟩
    rcases hrep.asked r hr with hr | ⟨e, at_, hf, hpoll, hr⟩
    · cases hr
    · obtain rfl : e.clipId = c := (rewrites_of_mem hr).mp hrew
      rw [hc.settled e hf] at hpoll
      cases hpoll
  refine ⟨⟨ho', fun c hc => ?_, hs.nodup, fun e he => ?_⟩, hret⟩
  · -- the set grows by clips whose sidecar was just read and is settled
    rcases hrep.settled c hc with hc | ⟨e, he, hpoll⟩
    · exact (hret c (hi.retired c hc)).1
    · have hset : ∀ e', t.get (.queue .delivered c .json) = some (.sidecar e') →
          isPollable e' = false := by
        intro e' he'
        obtain rfl := sidecar_unique he he'
        exact hpoll
      obtain ⟨hp, hu⟩ := hdel c (by rw [he]; simp)
      exact ⟨hpassed c hp, hu, hdue c hset, hset⟩
  · obtain ⟨-, hpoll, hget⟩ := hs.entry e he
    obtain ⟨hp, hu⟩ := hdel e.clipId (by rw [hget]; simp)
    exact ⟨hpoll, hpassed _ hp, hu, Or.inr hget⟩

/-- A poll leaves everything as it is, or rewrites the entry; it settles an entry that it adds to the
skip set. -/
theorem PollRun.cases {fs : Fs} {seen seen' : Finset ClipId} {asked : List Req}
    (h : PollRun seen fs e seen' t asked) :
    (seen' = seen ∧ t = fs ∧ asked = []) ∨ ∃ e', e'.clipId = e.clipId ∧ SameButPolled e e' ∧
      t = replaceSidecar fs .delivered e'.clipId e' ∧ asked = rewriteRequests e' ∧
      (seen' = seen ∨ seen' = insert e.clipId seen ∧ isPollable e' = false) := by
  cases h with
  | transient => exact Or.inl ⟨rfl, rfl, rfl⟩
  | status s =>
    refine Or.inr ⟨polledRecord e s, rfl, rfl, rfl, rfl, ?_⟩
    by_cases hs : s.isTerminal = true
    · exact Or.inr ⟨if_pos hs, by simp [isPollable, polledRecord, hs]⟩
    · exact Or.inl (if_neg hs)
  | lost at_ => exact Or.inr ⟨lostRecord e at_, rfl, rfl, rfl, rfl, Or.inr ⟨rfl, by simp⟩⟩

theorem PollInv.poll {rest : List ClipQueueEntry} {v : Finset ClipId × Except PollerError Unit}
    {readings readings' : List DateTime} {asked : List Req} (hi : PollInv ⟨st, e :: rest⟩)
    (h : Runs Watched (pollOne cfg.client cfg.showUuid st.seen e) ((st.fs, readings), []) v
      ((t, readings'), asked)) :
    PollInv ⟨{ st with fs := t, seen := v.1 }, remaining rest v.2⟩ ∧
      LeavesRetired ⟨st, e :: rest⟩ (.polled e asked)
        ⟨{ st with fs := t, seen := v.1 }, remaining rest v.2⟩ := by
  have ho := hi.orderly
  obtain ⟨hv, hrun⟩ := runs_pollOne_watched h
  rw [hv]
  obtain ⟨hpoll, hpe, hue, hfe⟩ := hi.due e List.mem_cons_self
  obtain ⟨hne, hnd⟩ := List.nodup_cons.mp hi.nodup
  have hrest : ∀ e' ∈ rest, e'.clipId ≠ e.clipId := by
    intro e' he' hid
    exact hne (hid ▸ List.mem_map_of_mem he')
  rcases hrun.cases with ⟨hseen, ht, ha⟩ | ⟨e', hid, -, ht, ha, hseen⟩ <;> dsimp only at ht ha
  · -- a transient answer: nothing changes
    subst ht ha
    rw [hseen]
    have hret : LeavesRetired ⟨st, e :: rest⟩ (.polled e []) ⟨st, rest⟩ := by
      intro c hc
      refine ⟨⟨hc.passed, hc.used, fun e' he' => hc.due e' (List.mem_cons_of_mem _ he'),
        hc.settled⟩, hc.due e List.mem_cons_self, ?_, Or.inl rfl⟩
      rintro ⟨r, hr, -⟩
      cases hr
    exact ⟨⟨ho, fun c hc => (hret c (hi.retired c hc)).1, hnd, fun e' he' =>
      hi.due e' (List.mem_cons_of_mem _ he')⟩, hret⟩
  · -- the entry is rewritten, as its poll found it or as lost
    subst ht ha
    have hsame : ∀ c, c ≠ e.clipId → (replaceSidecar st.fs .delivered e'.clipId e').get
        (.queue .delivered c .json) = st.deliveredFile c :=
      fun c hc => get_replaceSidecar_other fun hdc => hc (hdc.2.trans hid)
    have hdel : ∀ c, (replaceSidecar st.fs .delivered e'.clipId e').get
        (.queue .delivered c .json) ≠ none → Passed st c ∧ c ∈ st.used := by
      intro c hc
      by_cases hce : c = e.clipId
      · exact hce ▸ ⟨hpe, hue⟩
      · exact ho.delivered (hsame c hce ▸ hc)
    obtain ⟨ho', hpassed⟩ := ho.of_delivered v.1 (ho.named.replaceSidecar _ _)
      (AllDecode.rewrite ho.decodes)
      (fun d c hd => get_replaceSidecar_other fun hdc => hd hdc.1) hdel
    have hret : LeavesRetired ⟨st, e :: rest⟩ (.polled e (rewriteRequests e'))
        ⟨{ st with fs := replaceSidecar st.fs .delivered e'.clipId e', seen := v.1 }, rest⟩ := by
      intro c hc
      have hce : c ≠ e.clipId := (hc.due e List.mem_cons_self).symm
      refine ⟨⟨hpassed c hc.passed, hc.used, fun e' he' =>
        hc.due e' (List.mem_cons_of_mem _ he'), fun e₁ he₁ =>
          hc.settled e₁ ((hsame c hce).symm.trans he₁)⟩, hce.symm, ?_, Or.inl (hsame c hce)⟩
      rintro ⟨r, hr, hrew⟩
      exact hce (((rewrites_of_mem hr).mp hrew).symm.trans hid)
    refine ⟨⟨ho', fun c hc => ?_, hnd, fun e₁ he₁ => ?_⟩, hret⟩
    · rcases hseen with hseen | ⟨hseen, hsettled⟩
      · exact (hret c (hi.retired c (hseen ▸ hc))).1
      · -- the clip polled joins the set only if it is settled now
        rcases Finset.mem_insert.mp (hseen ▸ hc) with rfl | hc
        · refine ⟨hpassed _ hpe, hue, hrest, fun e₁ he₁ => ?_⟩
          obtain rfl := sidecar_unique get_replaceSidecar_self (hid ▸ he₁)
          exact hsettled
        · exact (hret c (hi.retired c hc)).1
    · obtain ⟨hpoll₁, hp₁, hu₁, hf₁⟩ := hi.due e₁ (List.mem_cons_of_mem _ he₁)
      refine ⟨hpoll₁, hpassed _ hp₁, hu₁, ?_⟩
      rw [Station.deliveredFile, hsame _ (hrest e₁ he₁)]
      exact hf₁

/-- The pruned clips leave the set. -/
theorem runs_pruneRound_seen {fs : Fs} {retentionHours : ℤ} {seen : Finset ClipId}
    {v : Finset ClipId × List ClipId} (h : Runs Nominal (pruneRound retentionHours seen) fs v t) :
    v.1 = seen \ v.2.toFinset := by
  simp only [pruneRound, runs_bind, runs_now, Nominal] at h
  obtain ⟨at_, u, rfl, h⟩ := h
  cases hc : pruneCutoff retentionHours at_ with
  | none => simp only [hc, runs_abort] at h
  | some cutoff =>
    simp only [hc, runs_bind] at h
    obtain ⟨r, w, hw, h⟩ := h
    cases r with
    | ok pruned =>
      obtain ⟨rfl, -⟩ := h
      rfl
    | error err =>
      obtain ⟨rfl, -⟩ := h
      simp

/-- A prune takes exactly the pruned clips out of `delivered/`. -/
theorem PruneEffect.deliveredFile {fs : Fs} {before : DateTime} {pruned : List ClipId}
    (h : PruneEffect fs t before pruned) (hn : Named fs) (c : ClipId) :
    t.get (.queue .delivered c .json) =
      if c ∈ pruned then none else fs.get (.queue .delivered c .json) := by
  split_ifs with hc
  · obtain ⟨s, e, he, hp, rfl⟩ := (h.mem c).mp hc
    obtain rfl := hn _ _ _ he
    exact h.gone _ .json (Or.inr rfl) ⟨e, he, hp⟩
  · refine h.same _ ?_
    rintro s x hpath - ⟨e, he, hp⟩
    obtain ⟨-, rfl, -⟩ := Path.queue.inj hpath
    exact hc ((h.mem c).mpr ⟨c, e, he, hp, hn _ _ _ he⟩)

theorem PollInv.prune {v : Finset ClipId × List ClipId} (hi : PollInv ⟨st, []⟩)
    (h : Runs Nominal (pruneRound cfg.retentionHours st.seen) st.fs v t) :
    PollInv ⟨{ st with fs := t, seen := v.1 }, []⟩ ∧
      LeavesRetired ⟨st, []⟩ (.pruned v.2) ⟨{ st with fs := t, seen := v.1 }, []⟩ := by
  have ho := hi.orderly
  obtain ⟨-, cutoff, -, heff⟩ := runs_pruneRound h
  have hfile := heff.deliveredFile ho.named
  have hdel : ∀ c, t.get (.queue .delivered c .json) ≠ none → st.deliveredFile c ≠ none := by
    intro c hc
    rw [hfile] at hc
    split_ifs at hc
    · exact absurd rfl hc
    · exact hc
  obtain ⟨ho', hpassed⟩ := ho.of_delivered (t := t) v.1 (heff.named ho.named)
    (by
      rintro c ⟨data, hd⟩
      rw [hfile] at hd
      split_ifs at hd
      exact ho.decodes c ⟨data, hd⟩)
    (fun d c hd => heff.same _ fun s x hpath => absurd (Path.queue.inj hpath).1 hd)
    fun c hc => ho.delivered (hdel c hc)
  have hret : LeavesRetired ⟨st, []⟩ (.pruned v.2) ⟨{ st with fs := t, seen := v.1 }, []⟩ := by
    intro c hc
    have hf : t.get (.queue .delivered c .json) = st.deliveredFile c ∨
        t.get (.queue .delivered c .json) = none := by
      rw [hfile]
      split_ifs
      · exact Or.inr rfl
      · exact Or.inl rfl
    refine ⟨⟨hpassed c hc.passed, hc.used, hc.due, fun e he => ?_⟩, fun h => h, fun h => h, hf⟩
    rcases hf with hf | hf
    · exact hc.settled e (hf.symm.trans he)
    · cases hf.symm.trans he
  refine ⟨⟨ho', fun c hc => ?_, List.nodup_nil, fun _ he => by cases he⟩, hret⟩
  have hseen : c ∈ st.seen := by
    have hc' : c ∈ v.1 := hc
    rw [runs_pruneRound_seen h] at hc'
    exact (Finset.mem_sdiff.mp hc').1
  exact (hret c (hi.retired c hseen)).1

/-- Every step keeps the invariant and leaves the retired clips alone. -/
theorem PollStep.spec (hi : PollInv p) (h : PollStep cfg p ev p') :
    PollInv p' ∧ LeavesRetired p ev p' := by
  cases h with
  | beside hev hs => exact hi.beside (Step.aside hi.orderly hev hs)
  | scan hr => exact hi.scan hr
  | poll hr => exact hi.poll hr
  | prune hr => exact hi.prune hr

variable {tr : List (PollEvent × Polling)}

theorem PollInv.exec (hi : PollInv p) (h : Exec (PollStep cfg) p tr p') : PollInv p' :=
  h.invariant hi fun _ _ _ hi hs => (hs.spec hi).1

/-- A run never polls or rewrites a retired clip. -/
theorem Retired.exec (hi : PollInv p) (hc : Retired p c) (h : Exec (PollStep cfg) p tr p') :
    Retired p' c ∧ (∀ x ∈ tr, ¬ x.1.Polls c ∧ ¬ x.1.Rewrites c) ∧
      (p'.station.deliveredFile c = p.station.deliveredFile c ∨
        p'.station.deliveredFile c = none) := by
  induction h with
  | nil => exact ⟨hc, by simp, Or.inl rfl⟩
  | @snoc tr q u l hrun hs ih =>
    obtain ⟨hq, htr, hf⟩ := ih
    obtain ⟨hu, hpolls, hrew, hf'⟩ := (hs.spec (hi.exec hrun)).2 c hq
    refine ⟨hu, fun x hx => ?_, ?_⟩
    · rcases List.mem_append.mp hx with hx | hx
      · exact htr x hx
      · rw [List.mem_singleton.mp hx]
        exact ⟨hpolls, hrew⟩
    · rcases hf' with hf' | hf'
      · exact hf.imp hf'.trans hf'.trans
      · exact Or.inr hf'

/-! ## The set only saves reading -/

/-- The entry was classified terminal or marked lost. -/
def ClassifySettled (e : ClipQueueEntry) : Prop :=
  e.classifyLostAt.isSome = true ∨ ∃ s, e.lastClassifyStatus = some s ∧ s.isTerminal = true

theorem ClassifySettled.not_pollable (h : ClassifySettled e) : isPollable e = false := by
  unfold isPollable
  rcases h with h | ⟨s, hs, ht⟩
  · cases hl : e.classifyLostAt with
    | none =>
      rw [hl] at h
      cases h
    | some at_ => simp
  · simp [hs, ht]

/-- The operation is a scan, a poll or a prune round. -/
def PollEvent.OfPoller : PollEvent → Prop
  | .beside _ => False
  | _ => True

/-- What the poller may make of the sidecar of `c` in `d`. -/
inductive PolledFile (p : Polling) (ev : PollEvent) (p' : Polling) (d : Dir) (c : ClipId) : Prop
  | same : p'.station.fs.get (.queue d c .json) = p.station.fs.get (.queue d c .json) →
      PolledFile p ev p' d c
  | rewritten (e e' : ClipQueueEntry) : d = .delivered → e.clipId = c → isPollable e = true →
      (p.station.deliveredFile c = some (.sidecar e) ∨
        p.station.deliveredFile c = none ∧ e ∈ p.due) →
      p'.station.deliveredFile c = some (.sidecar e') → SameButPolled e e' → ev.Rewrites c →
      PolledFile p ev p' d c
  | pruned (ids : List ClipId) : d = .delivered → ev = .pruned ids → c ∈ ids →
      p'.station.deliveredFile c = none → PolledFile p ev p' d c

theorem rewrites_rewriteRequests (h : e.clipId = c) : ∃ r ∈ rewriteRequests e, r.Rewrites c :=
  ⟨_, List.mem_cons_self, (rewrites_of_mem List.mem_cons_self).mpr h⟩

/-- The poller changes no sidecar but that of an entry it polls or gives up on, and of that only its
own two fields; a prune removes sidecars whole. -/
theorem PollStep.polledFile (hi : PollInv p) (h : PollStep cfg p ev p') (hev : ev.OfPoller)
    (d : Dir) (c : ClipId) : PolledFile p ev p' d c := by
  have ho := hi.orderly
  cases h with
  | beside => exact hev.elim
  | scan hr =>
    obtain ⟨l, es, hl, hv, hs, hrep⟩ := scanned_of_watched ho.named ho.decodes hr
    rcases hrep.changed d c with hsame | ⟨e, at_, rfl, hid, hpoll, he, ht, hasked⟩
    · exact .same hsame
    · obtain ⟨r, hr', hrew⟩ := rewrites_rewriteRequests (e := lostRecord e at_) hid
      exact .rewritten e _ rfl hid hpoll (Or.inl he) ht rfl ⟨r, hasked r hr', hrew⟩
  | @poll st e rest v t readings readings' asked hr =>
    -- the entry polled was handed on by the scan, and is on disk as it was or away
    obtain ⟨hpoll, -, -, hf⟩ := hi.due e List.mem_cons_self
    obtain ⟨-, hrun⟩ := runs_pollOne_watched hr
    rcases hrun.cases with ⟨-, ht, -⟩ | ⟨e', hid, hsame, ht, ha, -⟩ <;> dsimp only at ht
    · subst ht
      exact .same rfl
    · subst ht
      by_cases hdc : d = .delivered ∧ c = e'.clipId
      · obtain ⟨rfl, rfl⟩ := hdc
        obtain ⟨r, hr', hrew⟩ := rewrites_rewriteRequests (e := e') rfl
        obtain rfl : asked = rewriteRequests e' := ha
        refine .rewritten e e' rfl hid.symm hpoll ?_ get_replaceSidecar_self hsame ⟨r, hr', hrew⟩
        rw [hid]
        rcases hf with hf | hf
        · exact Or.inr ⟨hf, List.mem_cons_self⟩
        · exact Or.inl hf
      · exact .same (get_replaceSidecar_other hdc)
  | @prune st v t hr =>
    obtain ⟨-, cutoff, -, heff⟩ := runs_pruneRound hr
    by_cases hd : d = .delivered
    · subst hd
      have hfile := heff.deliveredFile ho.named c
      split_ifs at hfile with hc
      · exact .pruned v.2 rfl rfl hc hfile
      · exact .same hfile
    · exact .same (heff.same _ fun s x hpath => absurd (Path.queue.inj hpath).1 hd)

/-- In every state a poller's process reaches: a scan with the accumulated set hands on the same
entries, leaves the same files, takes the same readings and asks for the same changes as one with
the empty set; a settled entry is never polled or rewritten again; and the poller changes no sidecar
but in the two fields of an entry it polls or gives up on. -/
theorem skip_set_only_saves_reading {p₀ : Polling} {tr : List (PollEvent × Polling)} (h₀ : p₀.Fresh)
    (h : Exec (PollStep cfg) p₀ tr p) :
    (∀ readings r u,
      (∃ seen, Runs Watched (scanNonTerminal p.station.seen) ((p.station.fs, readings), [])
        (seen, r) u) ↔
      ∃ seen, Runs Watched (scanNonTerminal ∅) ((p.station.fs, readings), []) (seen, r) u) ∧
    (∀ c e, p.station.deliveredFile c = some (.sidecar e) → ClassifySettled e →
      ∀ tr' p', Exec (PollStep cfg) p tr' p' →
        (∀ x ∈ tr', ¬ x.1.Polls c ∧ ¬ x.1.Rewrites c) ∧
        (p'.station.deliveredFile c = some (.sidecar e) ∨ p'.station.deliveredFile c = none)) ∧
    (∀ ev p', PollStep cfg p ev p' → ev.OfPoller → ∀ d c, PolledFile p ev p' d c) := by
  have hi := h₀.inv.exec h
  have ho := hi.orderly
  have hempty : SkipsSettled p.station.fs ∅ := fun c hc => by simp at hc
  refine ⟨fun readings r u => ⟨?_, ?_⟩, fun c e he hset tr' p' h' => ?_, fun ev p' hs hev =>
    hs.polledFile hi hev⟩
  · exact scanNonTerminal_skips ho.named ho.decodes hi.skipsSettled hempty
  · exact scanNonTerminal_skips ho.named ho.decodes hempty hi.skipsSettled
  · obtain ⟨hp, hu⟩ := ho.delivered (c := c) (by rw [he]; simp)
    have hsettled : ∀ e', p.station.deliveredFile c = some (.sidecar e') →
        isPollable e' = false := by
      intro e' he'
      obtain rfl := sidecar_unique he he'
      exact hset.not_pollable
    have hdue : ∀ e' ∈ p.due, e'.clipId ≠ c := by
      rintro e' he' rfl
      obtain ⟨hpoll, -, -, hf | hf⟩ := hi.due e' he'
      · cases he.symm.trans hf
      · rw [hsettled e' hf] at hpoll
        cases hpoll
    obtain ⟨-, htr, hf⟩ := Retired.exec hi ⟨hp, hu, hdue, hsettled⟩ h'
    exact ⟨htr, hf.imp_left fun hf => hf.trans he⟩

/-! ## The set and the directory it shadows -/

/-- Every clip of the skip set has a sidecar in `delivered/`. -/
def Shadows (p : Polling) : Prop :=
  ∀ c ∈ p.station.seen, (p.station.deliveredFile c).isSome = true

/-- What a step does to the sidecar of a retired clip. -/
theorem PollStep.retired_file (hi : PollInv p) (h : PollStep cfg p ev p') (hc : Retired p c) :
    (p'.station.deliveredFile c = p.station.deliveredFile c ∧ ¬ ev.Evicts c) ∨
      (p'.station.deliveredFile c = none ∧
        (ev.Evicts c ∨ ∃ ids, ev = .pruned ids ∧ c ∈ ids)) := by
  by_cases hev : ev.OfPoller
  · have hno : ¬ ev.Evicts c := by
      cases ev with
      | beside => exact hev.elim
      | _ => exact fun h => h
    cases h.polledFile hi hev .delivered c with
    | same hsame => exact Or.inl ⟨hsame, hno⟩
    | rewritten e e' _ hid hpoll hf =>
      rcases hf with hf | ⟨-, hdue⟩
      · rw [hc.settled e hf] at hpoll
        cases hpoll
      · exact absurd hid (hc.due e hdue)
    | pruned ids _ hids hmem hnone => exact Or.inr ⟨hnone, Or.inr ⟨ids, hids, hmem⟩⟩
  · cases h with
    | beside hb hs =>
      obtain ⟨-, h | ⟨hnone, hevict⟩⟩ := (Step.aside hi.orderly hb hs).passed c hc.passed
        fun _ => hc.used
      · exact Or.inl h
      · exact Or.inr ⟨hnone, Or.inl hevict⟩
    | _ => exact absurd trivial hev

/-- What a step does to the skip set: a new clip has its sidecar, and a clip leaves only with its
sidecar, in a prune. -/
theorem PollStep.seen (hi : PollInv p) (h : PollStep cfg p ev p') :
    (∀ c ∈ p'.station.seen, c ∈ p.station.seen ∨ (p'.station.deliveredFile c).isSome = true) ∧
      ∀ c ∈ p.station.seen, c ∈ p'.station.seen ∨
        (p.station.deliveredFile c).isSome = true ∧ ∃ ids, ev = .pruned ids ∧ c ∈ ids := by
  have ho := hi.orderly
  cases h with
  | beside hev hs =>
    have hseen := (Step.aside ho hev hs).seen
    exact ⟨fun c hc => Or.inl (hseen ▸ hc), fun c hc => Or.inl (hseen ▸ hc)⟩
  | scan hr =>
    obtain ⟨l, es, hl, hv, hs, hrep⟩ := scanned_of_watched ho.named ho.decodes hr
    refine ⟨fun c hc => ?_, fun c hc => Or.inl (hrep.subset hc)⟩
    rcases hrep.settled c hc with hc | ⟨e, he, -⟩
    · exact Or.inl hc
    · exact Or.inr (Option.isSome_iff_exists.mpr ⟨_, he⟩)
  | poll hr =>
    obtain ⟨-, hrun⟩ := runs_pollOne_watched hr
    rcases hrun.cases with ⟨hseen, -, -⟩ | ⟨e', hid, -, ht, -, hseen | ⟨hseen, -⟩⟩
    · exact ⟨fun c hc => Or.inl (hseen ▸ hc), fun c hc => Or.inl (hseen.symm ▸ hc)⟩
    · exact ⟨fun c hc => Or.inl (hseen ▸ hc), fun c hc => Or.inl (hseen.symm ▸ hc)⟩
    · refine ⟨fun c hc => ?_, fun c hc => Or.inl ?_⟩
      · -- the new clip of the set is the one just rewritten
        rcases Finset.mem_insert.mp (hseen ▸ hc) with rfl | hc
        · dsimp only at ht
          subst ht
          exact Or.inr (by simp [Station.deliveredFile, get_replaceSidecar, hid])
        · exact Or.inl hc
      · show c ∈ _
        rw [hseen]
        exact Finset.mem_insert_of_mem hc
  | @prune st v t hr =>
    -- the clips pruned leave the set, and had their sidecars
    obtain ⟨-, cutoff, -, heff⟩ := runs_pruneRound hr
    have hseen := runs_pruneRound_seen hr
    refine ⟨fun c hc => Or.inl ?_, fun c hc => ?_⟩
    · have hc' : c ∈ v.1 := hc
      rw [hseen] at hc'
      exact (Finset.mem_sdiff.mp hc').1
    · by_cases hmem : c ∈ v.2
      · obtain ⟨s, e, he, -, rfl⟩ := (heff.mem c).mp hmem
        obtain rfl := ho.named _ _ _ he
        exact Or.inr ⟨Option.isSome_iff_exists.mpr ⟨_, he⟩, v.2, rfl, hmem⟩
      · refine Or.inl ?_
        show c ∈ v.1
        rw [hseen]
        exact Finset.mem_sdiff.mpr ⟨hc, by simpa using hmem⟩

/-- The set shadows the directory after a step exactly if it did before and the step evicts no clip
of the set. -/
theorem PollStep.shadows_iff (hi : PollInv p) (h : PollStep cfg p ev p') :
    Shadows p' ↔ Shadows p ∧ ∀ c ∈ p.station.seen, ¬ ev.Evicts c := by
  obtain ⟨hnew, hold⟩ := h.seen hi
  constructor
  · -- a clip stays in the set unless a prune takes it, so its sidecar was there and stays
    intro hs
    have hkeep : ∀ c ∈ p.station.seen, p'.station.deliveredFile c = none →
        ∃ ids, ev = .pruned ids ∧ c ∈ ids := by
      intro c hc hnone
      rcases hold c hc with hc' | ⟨-, hids⟩
      · have := hs c hc'
        rw [hnone] at this
        cases this
      · exact hids
    refine ⟨fun c hc => ?_, fun c hc hevict => ?_⟩
    · rcases hold c hc with hc' | ⟨hsome, -⟩
      · rcases h.retired_file hi (hi.retired c hc) with ⟨hsame, -⟩ | ⟨hnone, -⟩
        · rw [← hsame]
          exact hs c hc'
        · have := hs c hc'
          rw [hnone] at this
          cases this
      · exact hsome
    · rcases h.retired_file hi (hi.retired c hc) with ⟨-, hno⟩ | ⟨hnone, -⟩
      · exact hno hevict
      · obtain ⟨ids, rfl, -⟩ := hkeep c hc hnone
        exact hevict
  · -- a clip of the new set is new with its sidecar, or an old one that no eviction took
    rintro ⟨hs, hspares⟩ c hc
    rcases hnew c hc with hc' | hsome
    · rcases h.retired_file hi (hi.retired c hc') with ⟨hsame, -⟩ | ⟨-, hevict | ⟨ids, rfl, hmem⟩⟩
      · rw [hsame]
        exact hs c hc'
      · exact absurd hevict (hspares c hc')
      · cases h with
        | prune hr =>
          have hc'' := hc
          rw [show (_ : Finset ClipId) = _ from runs_pruneRound_seen hr] at hc''
          exact absurd (List.mem_toFinset.mpr hmem) (Finset.mem_sdiff.mp hc'').2
    · exact hsome

/-- A set that shadows the directory is no larger than it. -/
theorem Shadows.card_le (h : Shadows p) {l : List Path}
    (hl : p.station.fs.Lists (fun q => q.inDir .delivered) l) :
    p.station.seen.card ≤ (l.filter (·.hasExt .json)).length := by
  have hsub : p.station.seen ⊆ ((l.filter (·.hasExt .json)).map Path.fileStem).toFinset := by
    intro c hc
    refine List.mem_toFinset.mpr (List.mem_map.mpr ⟨.queue .delivered c .json, ?_, rfl⟩)
    exact (mem_sidecars hl).mpr ⟨c, rfl, h c hc⟩
  calc p.station.seen.card
      ≤ ((l.filter (·.hasExt .json)).map Path.fileStem).toFinset.card := Finset.card_le_card hsub
    _ ≤ ((l.filter (·.hasExt .json)).map Path.fileStem).length := List.toFinset_card_le _
    _ = (l.filter (·.hasExt .json)).length := List.length_map _

theorem Polling.Fresh.shadows (h : p.Fresh) : Shadows p := by
  intro c hc
  rw [h.seen] at hc
  simp at hc

/-- After a prune round every clip of the skip set has a sidecar in `delivered/`, and the set is no
larger than the directory, exactly if no policy call of the run has evicted a clip that was in the
set. -/
theorem skip_set_shadows_iff {p₀ : Polling} {tr : List (PollEvent × Polling)} {ids : List ClipId}
    (h₀ : p₀.Fresh) (h : Exec (PollStep cfg) p₀ tr p) (hs : PollStep cfg p (.pruned ids) p') :
    ((∀ c ∈ p'.station.seen, (p'.station.deliveredFile c).isSome = true) ∧
      ∀ l, p'.station.fs.Lists (fun q => q.inDir .delivered) l →
        p'.station.seen.card ≤ (l.filter (·.hasExt .json)).length) ↔
    ∀ a ev b, Exec.Takes (PollStep cfg) p₀ tr a ev b → ∀ c ∈ a.station.seen, ¬ ev.Evicts c := by
  have hi := h₀.inv.exec h
  have hrun := h.holds_iff_forall_good h₀.inv (fun _ _ _ hi hs => (hs.spec hi).1) h₀.shadows
    fun _ _ _ hi hs => hs.shadows_iff hi
  rw [← hrun]
  constructor
  · rintro ⟨hall, -⟩
    exact ((hs.shadows_iff hi).mp hall).1
  · intro hp
    have hp' : Shadows p' := (hs.shadows_iff hi).mpr ⟨hp, fun c _ => fun h => h⟩
    exact ⟨hp', fun l hl => hp'.card_le hl⟩

/-! ## A refused clip, skipped and evicted -/

namespace Polling

/-- A clip without media data, refused by its pre-flight check. -/
def refusedClip : ClipQueueEntry :=
  refusedRecord (.new "c1" Station.epoch Station.epoch 0) Station.epoch "zero_length"

/-- A store with the refused clip and nothing else. -/
def refusedFs : Fs := FileMap.empty.put (.queue .delivered "c1" .json) (.sidecar refusedClip)

/-- A process that starts on the refused clip. -/
def started : Polling := ⟨⟨refusedFs, none, ∅, {"c1"}⟩, []⟩

/-- The refused clip is in the skip set. -/
def skipping : Polling := ⟨⟨refusedFs, none, {"c1"}, {"c1"}⟩, []⟩

/-- The refused clip has been evicted. -/
def evicted : Polling :=
  ⟨⟨afterEvicting refusedFs [⟨.deliveredUndeliverable, refusedClip⟩], none, {"c1"}, {"c1"}⟩, []⟩

theorem get_refusedFs (d : Dir) (c : ClipId) (x : Ext) :
    refusedFs.get (.queue d c x) =
      if d = .delivered ∧ c = "c1" ∧ x = .json then some (.sidecar refusedClip) else none := by
  simp [refusedFs, FileMap.get_put]

theorem get_evicted (d : Dir) (c : ClipId) (x : Ext) :
    evicted.station.fs.get (.queue d c x) = none := by
  show (afterEvicting refusedFs _).get _ = none
  rw [afterEvicting, FileMap.get_delAll, get_refusedFs]
  simp only [ite_eq_left_iff, ite_eq_right_iff, reduceCtorEq, imp_false]
  rintro hmem ⟨rfl, rfl, rfl⟩
  exact hmem (by simp [EvictableEntry.files, EvictableEntry.dir, refusedClip, ClipQueueEntry.new])

theorem lists_delivered : refusedFs.Lists (fun p => p.inDir .delivered)
    [.queue .delivered "c1" .json] := by
  refine ⟨by simp, fun p => ?_⟩
  cases p with
  | source name => simp [Path.inDir]
  | directory dir => simp [Path.inDir]
  | queue d c x =>
    rw [get_refusedFs, List.mem_singleton]
    by_cases h : d = .delivered ∧ c = "c1" ∧ x = .json <;> simp_all [Path.inDir]

theorem lists_none {fs : Fs} {d : Dir} (h : ∀ c x, fs.get (.queue d c x) = none) :
    fs.Lists (fun p => p.inDir d) [] := by
  refine ⟨List.nodup_nil, fun p => ⟨fun hp => by simp at hp, ?_⟩⟩
  rintro ⟨hin, hsome⟩
  cases p with
  | source name => simp [Path.inDir] at hin
  | directory dir => simp [Path.inDir] at hin
  | queue d' c x =>
    obtain rfl : d' = d := by simpa [Path.inDir] using hin
    rw [h] at hsome
    cases hsome

theorem started_fresh : started.Fresh := by
  have hnone : ∀ {d c}, d ≠ .delivered → refusedFs.get (.queue d c .json) = none := by
    intro d c hd
    rw [get_refusedFs, if_neg fun h => hd h.1]
  have hpassed : ∀ c, Passed started.station c := fun c =>
    ⟨hnone (by simp), hnone (by simp), fun _ h => by cases h⟩
  refine ⟨⟨fun d c e he => ?_, ?_, fun c _ => hpassed c, fun e he => (by cases he), fun c hc =>
    ⟨hpassed c, ?_⟩⟩, rfl, rfl⟩
  · have he' := (get_refusedFs d c .json).symm.trans he
    split_ifs at he' with h
    rw [← Blob.sidecar.inj (Option.some.inj he'), h.2.1]
    rfl
  · rintro c ⟨data, hd⟩
    have hd' := (get_refusedFs .delivered c .json).symm.trans hd
    split_ifs at hd'
    cases Option.some.inj hd'
  · refine (get_refusedFs .delivered c .json).trans (if_neg ?_)
    rintro ⟨-, rfl, -⟩
    exact hc (Finset.mem_singleton_self _)

theorem step_skipping : PollStep Config.plain started (.scanned []) skipping := by
  have hdec : AllDecode refusedFs := started_fresh.orderly.decodes
  have hscan : ScanRun ∅ [.queue .delivered "c1" .json] ((refusedFs, []), [])
      (insert refusedClip.clipId ∅, []) ((refusedFs, []), []) :=
    .settle (by simp) ((get_refusedFs .delivered "c1" .json).trans (if_pos ⟨rfl, rfl, rfl⟩)) rfl .nil
  exact .scan (v := ({"c1"}, .ok [])) ((runs_scanNonTerminal_watched hdec).mpr
    ⟨_, [], lists_delivered, rfl, hscan⟩)

/-- A policy call that has room for one clip only. -/
def outcome : PolicyOutcome := ⟨[⟨"c1", .maxClipsExceeded, 0, 0⟩], .ok ()⟩

theorem step_evicted : PollStep Config.plain skipping (.beside (.enforced outcome)) evicted := by
  have hother : ∀ {d}, d ≠ .delivered → refusedFs.Lists (fun p => p.inDir d) [] := fun hd =>
    lists_none fun c x => (get_refusedFs _ c x).trans (if_neg fun h => hd h.1)
  have hcensus : censusResult refusedFs [] [.queue .delivered "c1" .json] [] =
      .ok ⟨0, 0, [⟨.deliveredUndeliverable, refusedClip⟩]⟩ := by
    have hget : refusedFs.get (.queue .delivered "c1" .json) = some (.sidecar refusedClip) :=
      (get_refusedFs .delivered "c1" .json).trans (if_pos ⟨rfl, rfl, rfl⟩)
    simp only [censusResult, decodeAll, Path.hasExt, decide_true, if_true, sidecarAt, hget]
    rfl
  have hrun : Runs Nominal (applyPolicy .release ⟨1, 100, .dropOldestUndelivered⟩ 1) refusedFs
      outcome evicted.station.fs := by
    refine runs_applyPolicy_iff.mpr ⟨[], [.queue .delivered "c1" .json], [],
      ⟨hother (by simp), lists_delivered, hother (by simp)⟩, Or.inr ⟨_, 1, 0, hcensus, rfl, ?_, ?_⟩⟩
    · rfl
    · rfl
  have hstep : Step Config.plain skipping.station (.enforced outcome)
      { skipping.station with fs := evicted.station.fs } := .enforce hrun
  exact .beside trivial hstep

theorem step_pruned : PollStep Config.plain evicted (.pruned []) evicted := by
  have hcut : ClassifyPoller.pruneCutoff 24 Station.epoch =
      some (.ofSecs (-86400) ⟨by decide, by decide⟩) := rfl
  have hprune : ∀ before, Runs Nominal (pruneDelivered before) evicted.station.fs (.ok [])
      evicted.station.fs := by
    intro before
    simp only [runs_bind, pruneDelivered, runs_readDir, Nominal]
    exact ⟨.ok [], _, ⟨rfl, [], lists_none fun c x => get_evicted _ c x, rfl⟩, rfl, rfl⟩
  have hrun : Runs Nominal (pruneRound 24 {"c1"}) evicted.station.fs ({"c1"}, [])
      evicted.station.fs := by
    simp only [pruneRound, runs_bind, runs_now, Nominal]
    refine ⟨Station.epoch, _, rfl, ?_⟩
    rw [hcut]
    simp only [runs_bind]
    exact ⟨.ok [], _, hprune _, by simp, rfl⟩
  exact @PollStep.prune Config.plain evicted.station _ _ hrun

def refusedTrace : List (PollEvent × Polling) :=
  [(.scanned [], skipping), (.beside (.enforced outcome), evicted)]

theorem exec_skipping : Exec (PollStep Config.plain) started [(.scanned [], skipping)] skipping :=
  Exec.nil.snoc step_skipping

theorem exec_evicted : Exec (PollStep Config.plain) started refusedTrace evicted :=
  exec_skipping.snoc step_evicted

end Polling

open Polling

theorem skip_set_only_saves_reading_refused :
    ∃ seen, Runs Watched (scanNonTerminal ∅) ((refusedFs, []), []) (seen, .ok [])
      ((refusedFs, []), []) := by
  have hdec : AllDecode refusedFs := started_fresh.orderly.decodes
  have hpass : ScanRun {"c1"} [.queue .delivered "c1" .json] ((refusedFs, []), []) ({"c1"}, [])
      ((refusedFs, []), []) := by
    refine .pass ?_ .nil
    rintro c ⟨⟩
    exact Or.inl (Finset.mem_singleton_self _)
  have hskip : Runs Watched (scanNonTerminal {"c1"}) ((refusedFs, []), []) ({"c1"}, .ok [])
      ((refusedFs, []), []) :=
    (runs_scanNonTerminal_watched hdec).mpr ⟨_, [], lists_delivered, rfl, hpass⟩
  exact ((skip_set_only_saves_reading started_fresh exec_skipping).1 [] (.ok [])
    ((refusedFs, []), [])).mp ⟨_, hskip⟩

/-- The eviction of a skipped clip stays in the set: no prune round finds its sidecar any more. -/
theorem skip_set_outgrows_directory :
    ∃ (p₀ p p' : Polling) (tr : List (PollEvent × Polling)), p₀.Fresh ∧
      Exec (PollStep Config.plain) p₀ tr p ∧ PollStep Config.plain p (.pruned []) p' ∧
      "c1" ∈ p'.station.seen ∧ p'.station.deliveredFile "c1" = none ∧
      p'.station.fs.Lists (fun q => q.inDir .delivered) [] ∧ p'.station.seen.card = 1 :=
  ⟨started, Polling.evicted, Polling.evicted, refusedTrace, started_fresh, exec_evicted, step_pruned,
    Finset.mem_singleton_self _, get_evicted _ _ _, lists_none fun c x => get_evicted _ c x, rfl⟩

theorem skip_set_shadows_iff_evicted :
    ¬ ∀ a ev b, Exec.Takes (PollStep Config.plain) started refusedTrace a ev b →
      ∀ c ∈ a.station.seen, ¬ ev.Evicts c := by
  intro hall
  obtain ⟨hshadows, -⟩ := (skip_set_shadows_iff started_fresh exec_evicted step_pruned).mpr hall
  have hsome := hshadows "c1" (Finset.mem_singleton_self _)
  rw [show Polling.evicted.station.deliveredFile "c1" = none from get_evicted _ _ _] at hsome
  cases hsome

end Perchstation
