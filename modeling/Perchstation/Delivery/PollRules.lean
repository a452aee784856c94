import Perchstation.Delivery.Classify
import Perchstation.Queue.Kept
import Perchstation.Queue.PolicyRules

/-!
# Poll rules — what a poll round does to the files

A poll round rewrites sidecars of `delivered/` in their two classify fields, and only those of
entries that are pollable; it quarantines the undecodable ones.
-/

namespace Perchstation

open Resumption QueueStore ClassifyPoller

/-- The classify fields of a pollable entry may change, nothing else. -/
def PollUpdate (e e' : ClipQueueEntry) : Prop :=
  e' = e ∨ isPollable e = true ∧
    e' = { e with lastClassifyStatus := e'.lastClassifyStatus, classifyLostAt := e'.classifyLostAt }

namespace PollUpdate

variable {e e' e'' : ClipQueueEntry}

theorem refl (e : ClipQueueEntry) : PollUpdate e e := Or.inl rfl

theorem trans (h : PollUpdate e e') (h' : PollUpdate e' e'') : PollUpdate e e'' := by
  rcases h with rfl | ⟨hp, he⟩
  · exact h'
  · rcases h' with rfl | ⟨-, he'⟩
    · exact Or.inr ⟨hp, he⟩
    · refine Or.inr ⟨hp, ?_⟩
      rw [he', he]

theorem clipId (h : PollUpdate e e') : e'.clipId = e.clipId := by
  rcases h with rfl | ⟨-, he⟩
  · rfl
  · rw [he]

theorem outcome (h : PollUpdate e e') : e'.outcome = e.outcome := by
  rcases h with rfl | ⟨-, he⟩
  · rfl
  · rw [he]

theorem attempts (h : PollUpdate e e') : e'.attempts = e.attempts := by
  rcases h with rfl | ⟨-, he⟩
  · rfl
  · rw [he]

theorem classifyTaskId (h : PollUpdate e e') : e'.classifyTaskId = e.classifyTaskId := by
  rcases h with rfl | ⟨-, he⟩
  · rfl
  · rw [he]

theorem deliveredAt (h : PollUpdate e e') : e'.deliveredAt = e.deliveredAt := by
  rcases h with rfl | ⟨-, he⟩
  · rfl
  · rw [he]

end PollUpdate

/-- What polling may have changed. -/
structure PollEffect (fs t : Fs) : Prop where
  elsewhere : ∀ d c x, d ≠ .delivered → d ≠ .corrupt →
    t.get (.queue d c x) = fs.get (.queue d c x)
  media : ∀ c, ¬ Undecodable fs (.queue .delivered c .json) →
    t.get (.queue .delivered c .mp4) = fs.get (.queue .delivered c .mp4)
  absent : ∀ c, fs.get (.queue .delivered c .json) = none →
    t.get (.queue .delivered c .json) = none
  sidecar : ∀ c e, fs.get (.queue .delivered c .json) = some (.sidecar e) →
    ∃ e', t.get (.queue .delivered c .json) = some (.sidecar e') ∧ PollUpdate e e'
  named : Named fs → Named t

namespace PollEffect

variable {fs t u : Fs} {c : ClipId} {e e' : ClipQueueEntry}

theorem refl (fs : Fs) : PollEffect fs fs :=
  ⟨fun _ _ _ _ _ => rfl, fun _ _ => rfl, fun _ h => h, fun _ e h => ⟨e, h, PollUpdate.refl e⟩,
    fun h => h⟩

theorem not_undecodable (h : PollEffect fs t) (hc : ¬ Undecodable fs (.queue .delivered c .json)) :
    ¬ Undecodable t (.queue .delivered c .json) := by
  rintro ⟨data, hd⟩
  rcases hg : fs.get (.queue .delivered c .json) with _ | e | data'
  · rw [h.absent c hg] at hd
    cases hd
  · obtain ⟨e', he', -⟩ := h.sidecar c e hg
    rw [he'] at hd
    cases hd
  · exact hc ⟨data', hg⟩

theorem trans (h : PollEffect fs t) (h' : PollEffect t u) : PollEffect fs u where
  elsewhere d c x hd hd' := (h'.elsewhere d c x hd hd').trans (h.elsewhere d c x hd hd')
  media c hc := (h'.media c (h.not_undecodable hc)).trans (h.media c hc)
  absent c hc := h'.absent c (h.absent c hc)
  sidecar c e he := by
    obtain ⟨e', he', hu⟩ := h.sidecar c e he
    obtain ⟨e'', he'', hu'⟩ := h'.sidecar c e' he'
    exact ⟨e'', he'', hu.trans hu'⟩
  named hn := h'.named (h.named hn)

theorem quarantined {data : List UInt8}
    (hb : fs.get (.queue .delivered c .json) = some (.bytes data)) :
    PollEffect fs (quarantined fs .delivered c (.bytes data)) where
  elsewhere d s x hd hd' := get_quarantined_of_ne hd hd'
  media s hs := by
    refine (sameClip_quarantined ?_).media _
    rintro rfl
    exact hs ⟨data, hb⟩
  absent s hs := by
    rw [(sameClip_quarantined _).sidecar, hs]
    rintro rfl
    rw [hb] at hs
    cases hs
  sidecar s e he := by
    refine ⟨e, ?_, PollUpdate.refl e⟩
    rw [(sameClip_quarantined _).sidecar, he]
    rintro rfl
    rw [hb] at he
    cases he
  named hn := hn.quarantined

theorem replaceSidecar (hg : fs.get (.queue .delivered e.clipId .json) = some (.sidecar e))
    (hu : PollUpdate e e') : PollEffect fs (replaceSidecar fs .delivered e'.clipId e') where
  elsewhere d s x hd _ := by
    rw [get_replaceSidecar, if_neg, if_neg] <;> simp [hd]
  media s _ := by simp [get_replaceSidecar]
  absent s hs := by
    have hne : s ≠ e'.clipId := by
      rintro rfl
      rw [hu.clipId, hg] at hs
      cases hs
    simp [get_replaceSidecar, hne, hs]
  sidecar s e₀ he₀ := by
    by_cases hs : s = e'.clipId
    · subst hs
      rw [hu.clipId, hg] at he₀
      obtain rfl := Blob.sidecar.inj (Option.some.inj he₀)
      exact ⟨e', by simp [get_replaceSidecar], hu⟩
    · exact ⟨e₀, by simp [get_replaceSidecar, hs, he₀], PollUpdate.refl e₀⟩
  named hn := hn.replaceSidecar _ _

end PollEffect

variable {fs t : Fs} {seen : Finset ClipId}

theorem runs_classifyBudgetExhausted {e : ClipQueueEntry} {b : Bool}
    (h : Runs Nominal (classifyBudgetExhausted e) fs b t) : t = fs := by
  unfold classifyBudgetExhausted at h
  cases hd : e.deliveredAt with
  | none =>
    rw [hd] at h
    exact h.2
  | some at_ =>
    simp only [hd, runs_bind, runs_now, Nominal] at h
    obtain ⟨_, _, rfl, -, rfl⟩ := h
    rfl

theorem runs_updateDeliveredSidecar {e : ClipQueueEntry} {v : Except QueueError Unit} :
    Runs Nominal (updateDeliveredSidecar e) fs v t ↔
      v = .ok () ∧ t = replaceSidecar fs .delivered e.clipId e :=
  runs_writeSidecarAtomic

/-- What the scan over a part of `delivered/` comes to: the entries it hands on are pollable, lie on
disk as they were read and have different clip-ids. -/
structure Scanned (fs t : Fs) (l : List Path) (es : List ClipQueueEntry) : Prop where
  effect : PollEffect fs t
  frame : ∀ c, Path.queue .delivered c .json ∉ l →
    t.get (.queue .delivered c .json) = fs.get (.queue .delivered c .json)
  nodup : (es.map ClipQueueEntry.clipId).Nodup
  entry : ∀ e ∈ es, Path.queue .delivered e.clipId .json ∈ l ∧ isPollable e = true ∧
    t.get (.queue .delivered e.clipId .json) = some (.sidecar e)

/-- A step at the head of the listing before the scan of the rest. -/
theorem Scanned.cons {u : Fs} {p : Path} {l : List Path} {es : List ClipQueueEntry}
    (h : Scanned u t l es) (heff : PollEffect fs u)
    (hframe : ∀ c, Path.queue .delivered c .json ≠ p →
      u.get (.queue .delivered c .json) = fs.get (.queue .delivered c .json)) :
    Scanned fs t (p :: l) es where
  effect := heff.trans h.effect
  frame c hc := by
    rw [List.mem_cons, not_or] at hc
    rw [h.frame c hc.2, hframe c hc.1]
  nodup := h.nodup
  entry e he := by
    obtain ⟨hmem, hrest⟩ := h.entry e he
    exact ⟨List.mem_cons_of_mem _ hmem, hrest⟩

/-- An entry read at the head of the listing is handed on. -/
theorem Scanned.collect {l : List Path} {es : List ClipQueueEntry} {e : ClipQueueEntry}
    (h : Scanned fs t l es) (hp : Path.queue .delivered e.clipId .json ∉ l)
    (hget : fs.get (.queue .delivered e.clipId .json) = some (.sidecar e))
    (hpoll : isPollable e = true) :
    Scanned fs t (.queue .delivered e.clipId .json :: l) (e :: es) where
  effect := h.effect
  frame c hc := h.frame c fun hm => hc (List.mem_cons_of_mem _ hm)
  nodup := by
    rw [List.map_cons, List.nodup_cons]
    refine ⟨fun hmem => ?_, h.nodup⟩
    obtain ⟨e', he', hid⟩ := List.mem_map.mp hmem
    exact hp (hid ▸ (h.entry e' he').1)
  entry e' he' := by
    rcases List.mem_cons.mp he' with rfl | he'
    · exact ⟨List.mem_cons_self, hpoll, by rw [h.frame _ hp, hget]⟩
    · obtain ⟨hmem, hrest⟩ := h.entry e' he'
      exact ⟨List.mem_cons_of_mem _ hmem, hrest⟩

theorem runs_scanLoop {l : List Path} {v : Finset ClipId × Except PollerError (List ClipQueueEntry)}
    (hfs : Named fs) (hnd : l.Nodup) (hl : ∀ p ∈ l, p.inDir .delivered = true)
    (h : Runs Nominal (scanLoop seen l) fs v t) : ∃ es, v.2 = .ok es ∧ Scanned fs t l es := by
  induction l generalizing fs seen v t with
  | nil =>
    obtain ⟨rfl, rfl⟩ := h
    exact ⟨[], rfl, PollEffect.refl _, fun _ _ => rfl, List.nodup_nil, by simp⟩
  | cons p rest ih =>
    obtain ⟨hp, hnd'⟩ := List.nodup_cons.mp hnd
    have hl' : ∀ q ∈ rest, q.inDir .delivered = true := fun q hq => hl q (List.mem_cons_of_mem _ hq)
    have hskip : ∀ {seen'}, Runs Nominal (scanLoop seen' rest) fs v t →
        ∃ es, v.2 = .ok es ∧ Scanned fs t (p :: rest) es := by
      intro seen' h
      obtain ⟨es, hv, hs⟩ := ih hfs hnd' hl' h
      exact ⟨es, hv, hs.cons (PollEffect.refl _) fun _ _ => rfl⟩
    rw [scanLoop] at h
    by_cases hx : p.hasExt .json = true
    · obtain ⟨s, rfl⟩ := inDir_and_hasExt_iff.mp ⟨hl p List.mem_cons_self, hx⟩
      simp only [hx, if_true] at h
      split_ifs at h with hseen
      · exact hskip h
      · simp only [runs_bind, runs_readSidecar, and_assoc, exists_and_left, exists_eq_left] at h
        rcases sidecarAt_cases fs (.queue .delivered s .json) with
          ⟨-, hr⟩ | ⟨e, hb, hr⟩ | ⟨data, hb, hr⟩ <;> rw [hr] at h <;> dsimp only at h
        · exact hskip h
        · obtain rfl := hfs _ _ _ hb
          split_ifs at h with hpoll
          · simp only [runs_bind] at h
            obtain ⟨exhausted, w, hw, h⟩ := h
            obtain rfl := runs_classifyBudgetExhausted hw
            cases exhausted with
            | true =>
              -- the entry is lost and rewritten so
              simp only [if_true, runs_bind, runs_now, runs_updateDeliveredSidecar, and_assoc,
                exists_and_left, exists_eq_left] at h
              obtain ⟨at_, w', hw', h⟩ := h
              obtain rfl : w' = w := hw'
              have hu : PollUpdate e { e with classifyLostAt := some at_ } := Or.inr ⟨hpoll, rfl⟩
              have heff := PollEffect.replaceSidecar hb hu
              obtain ⟨es, hv, hs⟩ := ih (heff.named hfs) hnd' hl' h
              refine ⟨es, hv, hs.cons heff fun c hc => ?_⟩
              rw [get_replaceSidecar, if_neg hc, if_neg (by simp)]
            | false =>
              -- the entry is collected
              simp only [Bool.false_eq_true, if_false, runs_bind] at h
              obtain ⟨⟨seen', r⟩, w', hw', h⟩ := h
              obtain ⟨es, hv, hs⟩ := ih hfs hnd' hl' hw'
              obtain rfl : r = .ok es := hv
              obtain ⟨rfl, rfl⟩ := h
              exact ⟨e :: es, rfl, hs.collect hp hb hpoll⟩
          · exact hskip h
        · -- a corrupt sidecar is quarantined
          rw [runs_bind] at h
          obtain ⟨r, w, hq, h⟩ := h
          obtain ⟨-, rfl⟩ := runs_quarantineCorrupt hb hq
          have heff := PollEffect.quarantined hb
          obtain ⟨es, hv, hs⟩ := ih (heff.named hfs) hnd' hl' h
          refine ⟨es, hv, hs.cons heff fun c hc => ?_⟩
          refine (sameClip_quarantined ?_).sidecar _
          rintro rfl
          exact hc rfl
    · simp only [hx, Bool.false_eq_true, if_false] at h
      exact hskip h

/-- Polling one entry that lies on disk as it was read. -/
theorem runs_pollOne {client : PerchpubClient} {showUuid : Uuid → String} {e : ClipQueueEntry}
    {v : Finset ClipId × Except PollerError Unit}
    (hget : fs.get (.queue .delivered e.clipId .json) = some (.sidecar e))
    (hpoll : isPollable e = true) (h : Runs Nominal (pollOne client showUuid seen e) fs v t) :
    v.2 = .ok () ∧ PollEffect fs t ∧ ∀ c, c ≠ e.clipId →
      t.get (.queue .delivered c .json) = fs.get (.queue .delivered c .json) := by
  have hsame : PollEffect fs fs ∧ ∀ c, c ≠ e.clipId →
      fs.get (.queue .delivered c .json) = fs.get (.queue .delivered c .json) :=
    ⟨PollEffect.refl _, fun _ _ => rfl⟩
  have hwrite : ∀ e', e'.clipId = e.clipId → PollUpdate e e' →
      PollEffect fs (replaceSidecar fs .delivered e'.clipId e') ∧ ∀ c, c ≠ e.clipId →
        (replaceSidecar fs .delivered e'.clipId e').get (.queue .delivered c .json) =
          fs.get (.queue .delivered c .json) := by
    intro e' hid hu
    refine ⟨PollEffect.replaceSidecar hget hu, fun c hc => ?_⟩
    rw [hid]
    exact (sameClip_replaceSidecar hc).sidecar _
  unfold pollOne at h
  cases htask : e.classifyTaskId with
  | none => simp only [htask, runs_abort] at h
  | some taskId =>
    simp only [htask, runs_bind] at h
    obtain ⟨r, w, hw, h⟩ := h
    obtain rfl := runs_getClassifyTask hw
    cases r with
    | ok task =>
      simp only [runs_bind, runs_updateDeliveredSidecar, and_assoc, exists_and_left,
        exists_eq_left] at h
      obtain ⟨rfl, rfl⟩ := h
      rw [← htask]
      exact ⟨rfl, hwrite { e with lastClassifyStatus := some task.status } rfl (Or.inr ⟨hpoll, rfl⟩)⟩
    | error err =>
      dsimp only at h
      cases hk : classifyPollError err with
      | transient =>
        rw [hk] at h
        obtain ⟨rfl, rfl⟩ := h
        exact ⟨rfl, hsame⟩
      | terminal =>
        simp only [hk, runs_bind, runs_now, runs_updateDeliveredSidecar, and_assoc, exists_and_left,
          exists_eq_left] at h
        obtain ⟨at_, w', hw', rfl, rfl⟩ := h
        obtain rfl : w' = w := hw'
        rw [← htask]
        exact ⟨rfl, hwrite { e with classifyLostAt := some at_ } rfl (Or.inr ⟨hpoll, rfl⟩)⟩

theorem runs_pollLoop {client : PerchpubClient} {showUuid : Uuid → String}
    {es : List ClipQueueEntry} {v : Finset ClipId × Except PollerError ℕ}
    (hnd : (es.map ClipQueueEntry.clipId).Nodup)
    (hes : ∀ e ∈ es, isPollable e = true ∧
      fs.get (.queue .delivered e.clipId .json) = some (.sidecar e))
    (h : Runs Nominal (pollLoop client showUuid seen es) fs v t) : PollEffect fs t := by
  induction es generalizing fs seen v t with
  | nil =>
    obtain ⟨-, rfl⟩ := h
    exact PollEffect.refl _
  | cons e rest ih =>
    obtain ⟨hne, hnd'⟩ := List.nodup_cons.mp hnd
    obtain ⟨hpoll, hget⟩ := hes e List.mem_cons_self
    rw [pollLoop, runs_bind] at h
    obtain ⟨⟨seen', r⟩, u, hu, h⟩ := h
    obtain ⟨hr, heff, hframe⟩ := runs_pollOne hget hpoll hu
    obtain rfl : r = .ok () := hr
    simp only [runs_bind] at h
    obtain ⟨⟨seen'', r⟩, w, hw, h⟩ := h
    have hrest : PollEffect u w := by
      refine ih hnd' (fun e' he' => ?_) hw
      obtain ⟨hpoll', hget'⟩ := hes e' (List.mem_cons_of_mem _ he')
      refine ⟨hpoll', ?_⟩
      rw [hframe _ fun hid => hne (hid ▸ List.mem_map_of_mem he'), hget']
    have htw : t = w := by
      cases r <;> exact h.2
    subst htw
    exact heff.trans hrest

/-- A poll round changes the classify fields of pollable entries only. -/
theorem runs_pollRound {client : PerchpubClient} {showUuid : Uuid → String}
    {v : Finset ClipId × Except PollerError ℕ} (hfs : Named fs)
    (h : Runs Nominal (pollRound client showUuid seen) fs v t) : PollEffect fs t := by
  unfold pollRound scanNonTerminal at h
  simp only [runs_bind, runs_readDir, Nominal] at h
  obtain ⟨⟨seen', r⟩, u, ⟨_, w, ⟨rfl, l, hl, rfl⟩, hscan⟩, h⟩ := h
  obtain ⟨es, hr, hs⟩ := runs_scanLoop hfs hl.nodup (fun p hp => (hl.mem.mp hp).1) hscan
  obtain rfl : r = .ok es := hr
  refine hs.effect.trans (runs_pollLoop hs.nodup (fun e he => ?_) h)
  exact (hs.entry e he).2

/-- A prune round is a prune before some cutoff. -/
theorem runs_pruneRound {retentionHours : ℤ} {v : Finset ClipId × List ClipId}
    (h : Runs Nominal (pruneRound retentionHours seen) fs v t) :
    ∃ at_ cutoff, pruneCutoff retentionHours at_ = some cutoff ∧
      PruneEffect fs t cutoff v.2 := by
  simp only [pruneRound, runs_bind, runs_now, Nominal] at h
  obtain ⟨at_, u, rfl, h⟩ := h
  cases hc : pruneCutoff retentionHours at_ with
  | none => simp only [hc, runs_abort] at h
  | some cutoff =>
    simp only [hc, runs_bind] at h
    obtain ⟨r, w, hw, h⟩ := h
    obtain ⟨pruned, rfl, heff⟩ := runs_pruneDelivered hw
    obtain ⟨rfl, rfl⟩ := h
    exact ⟨at_, cutoff, hc, heff⟩

end Perchstation
