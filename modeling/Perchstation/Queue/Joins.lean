import Perchstation.Lib.Heed
import Perchstation.Queue.RecoveryRules

/-!
# Joins — clip-ids that are one path component

`dir.join(format!("{clip_id}.json"))` is the file of that name in `dir` if the clip-id is one path
component.  The store does not check the clip-id of a sidecar that it reads: `./b` names the files of
the clip `b`, and the empty clip-id a file without an extension.  What a reconciliation does where no
such name comes up holds whatever the operating system makes of the others.
-/

namespace Perchstation

open Resumption QueueStore

/-- Not empty, and without separators: joined to a directory, a name in it. -/
def IsComponent (s : String) : Bool :=
  s ≠ "" && s.toList.all fun c => c ≠ '/' && c.toNat ≠ 0

def Path.IsJoined : Path → Prop
  | .queue _ stem _ => IsComponent stem = true
  | _ => True

/-- Every path of the request is one of the directory it is joined to. -/
def Req.IsJoined : Req → Prop
  | .metadata p | .fileExists p | .removeFile p | .write p _ | .read p | .openFile p => p.IsJoined
  | .rename src dst | .copy src dst => src.IsJoined ∧ dst.IsJoined
  | .post _ p _ => p.IsJoined
  | _ => True

/-- The answers of `E` are those without faults, wherever no other name is joined. -/
def JoinsComponents (E : Env Req Rep Fs) : Prop :=
  ∀ r, r.IsJoined → ∀ s v t, E s r v t ↔ Nominal s r v t

/-- The files that a reconciliation lists and the clip-ids that it reads are path components. -/
structure ComponentNames (fs : Fs) : Prop where
  files : ∀ d c x, d = .pending ∨ d = .inflight → (fs.get (.queue d c x)).isSome →
    IsComponent c = true
  clips : ∀ c e, fs.get (.queue .inflight c .json) = some (.sidecar e) →
    IsComponent e.clipId = true

section Programs

variable {fs t u : Fs} {d : Dir} {c : ClipId} {e : ClipQueueEntry} {l : List Path}

theorem within_writeSidecarAtomic_joined (hc : IsComponent c = true) :
    Within Req.IsJoined (writeSidecarAtomic (.queue d c .json) e) := by
  refine .bind (within_request hc) fun v => ?_
  rcases v with _ | _
  · exact within_pure _
  · refine .bind (within_request ⟨hc, hc⟩) fun v => ?_
    rcases v with _ | _
    · exact within_pure _
    · exact within_pure _

theorem within_removeIfExists_joined {p : Path} (hp : p.IsJoined) :
    Within Req.IsJoined (removeIfExists p) := by
  refine .bind (within_request hp) fun v => ?_
  rcases v with (_ | _ | _) | _
  · exact within_pure _
  · exact within_pure _
  · exact within_pure _
  · exact within_pure _

theorem within_transitionDelivered_joined (hc : IsComponent e.clipId = true) :
    Within Req.IsJoined (transitionDelivered e) := by
  refine .bind (within_writeSidecarAtomic_joined hc) fun v => ?_
  rcases v with _ | _
  · exact within_pure _
  refine .bind (within_removeIfExists_joined hc) fun v => ?_
  rcases v with _ | _
  · exact within_pure _
  refine .bind (within_request ⟨hc, hc⟩) fun v => ?_
  rcases v with _ | _
  · exact within_pure _
  · exact within_pure _

theorem within_transitionBackToPending_joined (hc : IsComponent e.clipId = true) :
    Within Req.IsJoined (transitionBackToPending e) := by
  have hmedia : Within Req.IsJoined
      (returnMedia (.queue .inflight e.clipId .mp4) (.queue .pending e.clipId .mp4)) := by
    refine .bind (within_request hc) fun found => ?_
    cases found with
    | false => exact within_pure _
    | true =>
      refine .bind (within_request ⟨hc, hc⟩) fun v => ?_
      rcases v with _ | _
      · exact within_pure _
      · exact within_pure _
  refine .bind hmedia fun v => ?_
  rcases v with _ | _
  · exact within_pure _
  refine .bind (within_writeSidecarAtomic_joined hc) fun v => ?_
  rcases v with _ | _
  · exact within_pure _
  · exact within_removeIfExists_joined hc

theorem within_sweepLoop_joined (hl : ∀ p ∈ l, p.IsJoined) :
    Within Req.IsJoined (sweepLoop l) := by
  induction l with
  | nil => exact within_pure _
  | cons p rest ih =>
    have hp : p.IsJoined := hl p List.mem_cons_self
    have hrest := ih fun q hq => hl q (List.mem_cons_of_mem _ hq)
    have hside : (p.withExtension .json).IsJoined := by
      cases p with
      | queue d c x => exact hp
      | source name => trivial
      | directory d => trivial
    rw [sweepLoop]
    split_ifs
    · refine .bind (within_request hside) fun found => ?_
      cases found with
      | true => exact hrest
      | false =>
        refine .bind (within_removeIfExists_joined hp) fun v => ?_
        rcases v with _ | _
        · exact within_pure _
        · exact hrest
    · exact hrest

/-! ## Reconciliation -/

/-- The files that a directory lists are joined to it. -/
theorem ComponentNames.listed (h : ComponentNames fs) (hd : d = .pending ∨ d = .inflight)
    (hl : fs.Lists (fun p => p.inDir d) l) : ∀ p ∈ l, p.IsJoined := by
  intro p hp
  obtain ⟨hin, hsome⟩ := hl.mem.mp hp
  cases p with
  | queue d' c x =>
    obtain rfl : d' = d := of_decide_eq_true hin
    exact h.files _ c x hd hsome
  | source name => trivial
  | directory d' => trivial

theorem ComponentNames.swept (h : ComponentNames fs) (hs : Swept fs t d) : ComponentNames t := by
  constructor
  · intro d' c x hd hsome
    refine h.files d' c x hd ?_
    by_cases hp : Orphan fs d (.queue d' c x)
    · rw [hs.gone _ hp] at hsome
      cases hsome
    · rwa [hs.rest _ hp] at hsome
  · intro c e he
    exact h.clips c e (hs.sidecar ▸ he)

theorem heeds_sweepOrphanMedia_joined (h : ComponentNames fs) (hd : d = .pending ∨ d = .inflight) :
    Heeds Nominal (fun r _ => r.IsJoined) (sweepOrphanMedia d) fs := by
  refine heeds_request trivial fun v t hv => ?_
  obtain ⟨rfl, l, hl, rfl⟩ := hv
  exact (within_sweepLoop_joined (h.listed hd hl)).heeds (fun _ _ hr => hr) _

/-- The loop reads the sidecars that are left: each entry takes at most one away. -/
theorem heeds_reconcileLoop_joined
    (hl : ∀ p ∈ l, ∃ c, p = .queue .inflight c .json ∧ IsComponent c = true)
    (hclips : ∀ c e, fs.get (.queue .inflight c .json) = some (.sidecar e) →
      IsComponent e.clipId = true) :
    Heeds Nominal (fun r _ => r.IsJoined) (reconcileLoop l) fs := by
  induction l generalizing fs with
  | nil => exact heeds_pure _ _
  | cons p rest ih =>
    obtain ⟨c, rfl, hc⟩ := hl p List.mem_cons_self
    have hrest := fun q hq => hl q (List.mem_cons_of_mem _ hq)
    have hread : Within Req.IsJoined (readSidecar (.queue .inflight c .json)) := by
      refine .bind (within_request hc) fun v => ?_
      rcases v with _ | _ | _
      · exact within_pure _
      · exact within_pure _
      · exact within_pure _
    rw [reconcileLoop]
    refine (hread.heeds (fun _ _ hr => hr) _).bind fun v u hv => ?_
    obtain ⟨rfl, rfl⟩ := runs_readSidecar.mp hv
    cases hat : sidecarAt u (.queue .inflight c .json) with
    | error err => exact heeds_pure _ _
    | ok e =>
      have hclip := hclips c e (sidecarAt_eq_ok_iff.mp hat)
      dsimp only
      split_ifs
      · -- a terminal entry is finished
        refine ((within_transitionDelivered_joined hclip).heeds (fun _ _ hr => hr) _).bind
          fun v t hv => ?_
        obtain ⟨rfl, rfl⟩ := runs_transitionDelivered.mp hv
        refine ih hrest fun c' e' he' => ?_
        rw [inflight_movedDelivered] at he'
        split_ifs at he'
        exact hclips c' e' he'
      · -- any other goes back to `pending/`
        have hback : IsComponent (requeued e).clipId = true := hclip
        refine ((within_transitionBackToPending_joined hback).heeds (fun _ _ hr => hr) _).bind
          fun v t hv => ?_
        obtain ⟨rfl, rfl⟩ := runs_transitionBackToPending.mp hv
        refine Heeds.bind (ih hrest fun c' e' he' => ?_) fun v t _ => ?_
        · rw [inflight_movedBack] at he'
          split_ifs at he'
          exact hclips c' e' he'
        · rcases v with _ | _
          · exact heeds_pure _ _
          · exact heeds_pure _ _

theorem heeds_reconcileInflight_joined (h : ComponentNames fs) :
    Heeds Nominal (fun r _ => r.IsJoined) reconcileInflight fs := by
  refine (heeds_sweepOrphanMedia_joined h (Or.inl rfl)).bind fun v u hv => ?_
  obtain ⟨rfl, hu⟩ := runs_sweepOrphanMedia.mp hv
  have h₁ := h.swept hu
  refine (heeds_sweepOrphanMedia_joined h₁ (Or.inr rfl)).bind fun v w hv => ?_
  obtain ⟨rfl, hw⟩ := runs_sweepOrphanMedia.mp hv
  have h₂ := h₁.swept hw
  refine heeds_request trivial fun v t hv => ?_
  obtain ⟨rfl, l, hl, rfl⟩ := hv
  refine heeds_reconcileLoop_joined (fun p hp => ?_) h₂.clips
  obtain ⟨c, rfl, hsome⟩ := (mem_sidecars hl).mp (mem_sortPaths.mp hp)
  exact ⟨c, rfl, h₂.files _ c _ (Or.inr rfl) hsome⟩

/-- A reconciliation runs as it does without faults, whatever comes of other names. -/
theorem runs_reconcileInflight_joined {E : Env Req Rep Fs} (hE : JoinsComponents E)
    (h : ComponentNames fs) {v : Except QueueError (List ClipQueueEntry)} :
    Runs E reconcileInflight fs v t ↔ Runs Nominal reconcileInflight fs v t :=
  Heeds.runs_iff ((heeds_reconcileInflight_joined h).mono fun r s hr v t => hE r hr s v t)

end Programs

end Perchstation
