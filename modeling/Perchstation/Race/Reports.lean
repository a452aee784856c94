import Perchstation.Race.Handoff
import Perchstation.Race.Parties

/-!
# Eviction reports — what the records of a sweep say

A sweep reports an eviction after two tolerant removals.  The report is true if the clip lies in
`pending/` with media and sidecar when its media goes, whatever the runner does before and after:
otherwise the files can be missing because the clip moved to `inflight/`.  It is complete if no
removal of a sidecar fails: otherwise the media is gone and the clip not named.
-/

namespace Perchstation

open Interleaving Resumption QueueStore

/-! ## The requests of a sweep -/

section Requests

variable {h : History Req Rep} {d : Dir} {c : ClipId}

/-- The answers tell that media of the clip was deleted. -/
def Deleted (d : Dir) (c : ClipId) (h : History Req Rep) : Prop :=
  (⟨.removeFile (.media d c), .ok ()⟩ : (r : Req) × Rep r) ∈ h

/-- The answers tell that the removal of the sidecar failed. -/
def SidecarStuck (d : Dir) (c : ClipId) (h : History Req Rep) : Prop :=
  ∃ err, err ≠ IoError.notFound ∧
    (⟨.removeFile (.sidecar d c), .error err⟩ : (r : Req) × Rep r) ∈ h

theorem Deleted.append {h' : History Req Rep} (hd : Deleted d c (h ++ h')) :
    Deleted d c h ∨ Deleted d c h' := List.mem_append.mp hd

theorem SidecarStuck.left {h' : History Req Rep} (hs : SidecarStuck d c h) :
    SidecarStuck d c (h ++ h') := by
  obtain ⟨err, herr, hmem⟩ := hs
  exact ⟨err, herr, List.mem_append_left _ hmem⟩

theorem SidecarStuck.right {h' : History Req Rep} (hs : SidecarStuck d c h') :
    SidecarStuck d c (h ++ h') := by
  obtain ⟨err, herr, hmem⟩ := hs
  exact ⟨err, herr, List.mem_append_right _ hmem⟩

/-- A program that only looks deletes nothing. -/
theorem not_deleted {α : Type} {p : Act α} {a : α} (hp : Within LooksOnly p) (hf : Follows p h a) :
    ¬Deleted d c h := fun hd => (follows_within hp hf _ hd : LooksOnly (.removeFile _))

theorem follows_removeIfExists {p : Path} {r : Except QueueError Unit}
    (hf : Follows (removeIfExists p) h r) : ∃ v : Except IoError Unit,
      h = [⟨.removeFile p, v⟩] ∧ (r = .ok () ∨ ∃ err, err ≠ .notFound ∧ v = .error err) := by
  obtain ⟨v, t, rfl, ht⟩ := follows_request_bind (r := Req.removeFile p) hf
  rcases v with (_ | _ | _) | _
  · obtain ⟨rfl, rfl⟩ := follows_pure ht
    exact ⟨_, rfl, Or.inl rfl⟩
  · obtain ⟨rfl, rfl⟩ := follows_pure ht
    exact ⟨_, rfl, Or.inr ⟨_, by simp, rfl⟩⟩
  · obtain ⟨rfl, rfl⟩ := follows_pure ht
    exact ⟨_, rfl, Or.inr ⟨_, by simp, rfl⟩⟩
  · obtain ⟨rfl, rfl⟩ := follows_pure ht
    exact ⟨_, rfl, Or.inl rfl⟩

/-- An eviction deletes media of its candidate only, and ends well then unless the sidecar is
stuck. -/
theorem deleted_of_evict {e : EvictableEntry} {r : Except QueueError Unit}
    (hf : Follows (evict e) h r) (hd : Deleted d c h) :
    d = e.dir ∧ c = e.entry.clipId ∧ (r = .ok () ∨ SidecarStuck d c h) := by
  obtain ⟨h₁, h₂, r₁, rfl, hf₁, hf₂⟩ := follows_bind hf
  obtain ⟨v, rfl, hv⟩ := follows_removeIfExists hf₁
  cases r₁ with
  | error err =>
    obtain ⟨rfl, rfl⟩ := follows_pure hf₂
    simp only [Deleted, List.append_nil, List.mem_singleton] at hd
    obtain ⟨err', -, rfl⟩ := hv.resolve_left (by simp)
    cases hd
  | ok =>
    obtain ⟨w, rfl, hw⟩ := follows_removeIfExists hf₂
    simp only [Deleted, List.cons_append, List.nil_append, List.mem_cons, List.not_mem_nil,
      or_false] at hd
    rcases hd with heq | heq
    · cases heq
      refine ⟨rfl, rfl, ?_⟩
      rcases hw with rfl | ⟨err, herr, rfl⟩
      · exact Or.inl rfl
      · exact Or.inr ⟨err, herr, by simp⟩
    · cases heq

theorem evicted_evictLoop {policy : QueuePolicy} {incoming : UInt64} {queueFull : InboxError}
    {clips : UInt32} {bytes : UInt64} {evictions : List EvictionRecord}
    {rest : List EvictableEntry} {o : PolicyOutcome}
    (hf : Follows (evictLoop policy incoming queueFull clips bytes evictions rest) h o) :
    evicted evictions ⊆ evicted o.evictions ∧
      (Deleted d c h → (d = .pending ∨ d = .delivered) ∧
        (c ∈ evicted o.evictions ∨ SidecarStuck d c h)) := by
  have hdir : ∀ e : EvictableEntry, e.dir = .pending ∨ e.dir = .delivered := by
    intro e
    unfold EvictableEntry.dir
    cases e.location with
    | deliveredUndeliverable => exact Or.inr rfl
    | pending => exact Or.inl rfl
  have hpure : ∀ {evictions : List EvictionRecord} {r : Except InboxError Unit}
      {h : History Req Rep}, Follows (pure ⟨evictions, r⟩ : Act PolicyOutcome) h o →
      evicted evictions ⊆ evicted o.evictions ∧
        (Deleted d c h → (d = .pending ∨ d = .delivered) ∧
          (c ∈ evicted o.evictions ∨ SidecarStuck d c h)) := by
    intro evictions r h hf
    obtain ⟨rfl, rfl⟩ := follows_pure hf
    exact ⟨fun c hc => hc, fun hd => by cases hd⟩
  induction rest generalizing clips bytes evictions h with
  | nil =>
    unfold evictLoop at hf
    split_ifs at hf <;> exact hpure hf
  | cons e rest ih =>
    unfold evictLoop at hf
    split_ifs at hf
    · obtain ⟨h₁, h₂, r, rfl, hf₁, hf₂⟩ := follows_bind hf
      cases r with
      | error err =>
        -- the loop stops in this eviction, which is not recorded
        refine ⟨(hpure hf₂).1, fun hd => ?_⟩
        rcases hd.append with hd | hd
        · obtain ⟨rfl, -, hok | hstuck⟩ := deleted_of_evict hf₁ hd
          · cases hok
          · exact ⟨hdir e, Or.inr hstuck.left⟩
        · exact ((hpure hf₂).2 hd).imp_right (Or.imp_right .right)
      | ok =>
        -- the eviction is recorded, and what is recorded stays so
        obtain ⟨hsub, hrest⟩ := ih hf₂
        refine ⟨fun c hc => hsub ?_, fun hd => ?_⟩
        · simp only [evicted, List.map_append, List.mem_append]
          exact Or.inl hc
        · rcases hd.append with hd | hd
          · obtain ⟨rfl, rfl, -⟩ := deleted_of_evict hf₁ hd
            refine ⟨hdir e, Or.inl (hsub ?_)⟩
            simp [evicted]
          · exact (hrest hd).imp_right (Or.imp_right .right)
    · exact hpure hf

/-- Every clip whose media a sweep deletes is named, unless its sidecar is stuck. -/
theorem evicted_applyPolicy {profile : Profile} {policy : QueuePolicy} {incoming : UInt64}
    {o : PolicyOutcome} (hf : Follows (applyPolicy profile policy incoming) h o)
    (hd : Deleted d c h) :
    (d = .pending ∨ d = .delivered) ∧ (c ∈ evicted o.evictions ∨ SidecarStuck d c h) := by
  obtain ⟨h₁, h₂, r, rfl, hf₁, hf₂⟩ := follows_bind hf
  have hd₂ : Deleted d c h₂ := hd.append.resolve_left (not_deleted looksOnly_takeCensus hf₁)
  have hpure : ∀ {r : Except InboxError Unit},
      ¬Follows (pure ⟨[], r⟩ : Act PolicyOutcome) h₂ o := by
    intro r hf
    obtain ⟨rfl, -⟩ := follows_pure hf
    cases hd₂
  cases r with
  | error err => exact (hpure hf₂).elim
  | ok census =>
    dsimp only at hf₂
    cases htotals : censusTotals profile census with
    | none =>
      rw [htotals] at hf₂
      obtain @⟨⟩ | @⟨_, _, v, _, _, _⟩ := hf₂
      cases v
    | some totals =>
      rw [htotals] at hf₂
      simp only [enforce] at hf₂
      split at hf₂
      · split at hf₂
        · exact (hpure hf₂).elim
        · split at hf₂
          · exact (hpure hf₂).elim
          · exact ((evicted_evictLoop hf₂).2 hd₂).imp_right (Or.imp_right .right)
      · exact (hpure hf₂).elim

end Requests

/-! ## The reports -/

section Reports

variable {fs₀ : Fs} {profile : Profile} {policy : QueuePolicy} {incoming : UInt64}
  {tr : List (Move Party Rep × Pool Req Rep (Party.Returns PolicyOutcome) Fs)}
  {b : Pool Req Rep (Party.Returns PolicyOutcome) Fs}

/-- What a sweep whose victims have not moved keeps up beside the runner. -/
theorem sound_of_stay (hwhole : AllWhole fs₀)
    (hrun : Exec (Party.Step SweepEnv)
      ⟨Party.beside (applyPolicy profile policy incoming), fs₀⟩ tr b)
    (hstay : ∀ a m c, Exec.Takes (Party.Step SweepEnv)
      ⟨Party.beside (applyPolicy profile policy incoming), fs₀⟩ tr a m c → Party.VictimsStay a m) :
    Sound (Party.Fair SweepEnv fun _ => True)
      (LegalQueue (fun c => (filesOf fs₀ c).recorded) fun _ => False)
      (Party.rely (fun c => (filesOf fs₀ c).recorded) (fun _ => False) fun _ => True)
      (Party.guar (fun c => (filesOf fs₀ c).recorded) (fun _ => False) fun _ => True)
      (Party.ends (SweepEnds (fun c => (filesOf fs₀ c).recorded) (fun _ => False) False policy
        incoming)) b := by
  have hlegal : LegalQueue (fun c => (filesOf fs₀ c).recorded) (fun _ => False) fs₀ :=
    fun c => (hwhole c).legal (fun _ => rfl) False
  have hqueue : Sweepable (fun c => (filesOf fs₀ c).recorded) (fun _ => False) (mediaClips fs₀) False
      fs₀ :=
    ⟨hlegal, fun _ hnew => hnew.elim, fun c => (hwhole c).paired, subset_rfl, False.elim, False.elim⟩
  have hsweep : SweepMeets (fun c => (filesOf fs₀ c).recorded) (fun _ => False) (fun _ => True)
      (SweepEnds (fun c => (filesOf fs₀ c).recorded) (fun _ => False) False policy incoming)
      (applyPolicy profile policy incoming) fs₀ := by
    rw [applyPolicy_eq]
    exact (census_survey hqueue).bind fun r t hr =>
      sweep_enforceOn hr fun _ _ hfits => hfits.elim
  exact Party.sound (fun o s t hs hl ho => ho.runnerStep hl hs) hsweep hlegal
    (fun c => (hwhole c).atRest)
    (Party.exec_fair_iff.mpr ⟨hrun, hstay, fun _ _ _ _ _ _ _ _ _ _ => trivial⟩)

/-- No sweep finds media in `delivered/`. -/
theorem not_deleted_delivered (hwhole : AllWhole fs₀)
    (hrun : Exec (Party.Step SweepEnv)
      ⟨Party.beside (applyPolicy profile policy incoming), fs₀⟩ tr b)
    (hstay : ∀ a m c, Exec.Takes (Party.Step SweepEnv)
      ⟨Party.beside (applyPolicy profile policy incoming), fs₀⟩ tr a m c → Party.VictimsStay a m)
    (c : ClipId) : ¬Deleted .delivered c (history .capture tr) := by
  intro hd
  obtain ⟨p, hmem⟩ := mem_history.mp hd
  obtain ⟨tr₁, tr₂, a, rfl, hbefore, hstep, -⟩ := hrun.split hmem
  have hsound := sound_of_stay hwhole hbefore fun a m c htk => hstay a m c (htk.append _)
  cases hstep with
  | answer hp hv =>
    have hnone := (hsound.invariant c).noDelivered
    change FileMap.get _ _ = none at hnone
    rcases hv with hv | ⟨⟨err, -, hv⟩, -⟩
    · simp only [Nominal, hnone] at hv
      cases hv.1
    · cases hv

/-- The sweep's records are true and complete when both parties are done, if every clip whose media
it removes from `pending/`, or misses there, has both its files there at that moment, and no removal
of a sidecar from `pending/` fails. -/
theorem eviction_reports_truthful {o : PolicyOutcome} {r : Except QueueError Unit}
    (hwhole : AllWhole fs₀)
    (hrun : Exec (Party.Step SweepEnv)
      ⟨Party.beside (applyPolicy profile policy incoming), fs₀⟩ tr b)
    (hcapture : b.prog .capture = .pure o) (hrunner : b.prog .runner = .pure r)
    (hstay : ∀ a m c, Exec.Takes (Party.Step SweepEnv)
      ⟨Party.beside (applyPolicy profile policy incoming), fs₀⟩ tr a m c → Party.VictimsStay a m)
    (hstuck : ∀ c, ¬SidecarStuck .pending c (history .capture tr)) :
    (∀ c ∈ evicted o.evictions, ¬(filesOf b.state c).Stored) ∧
    (evicted o.evictions).Nodup ∧
    ∀ d c, Deleted d c (history .capture tr) → c ∈ evicted o.evictions := by
  have hsound := sound_of_stay hwhole hrun hstay
  have hends : SweepEnds _ _ False policy incoming o b.state := hsound.result hcapture
  have hrest : AllAtRest b.state := hsound.result hrunner
  refine ⟨fun c hc => (hends.buried c hc).not_stored (hrest c), hends.nodup, fun d c hd => ?_⟩
  have hfollows := follows_of_exec (i := Party.capture) (fun _ _ hl => hl) hrun hcapture
  obtain ⟨rfl | rfl, hnamed | hfail⟩ := evicted_applyPolicy hfollows hd
  · exact hnamed
  · exact (hstuck c hfail).elim
  · exact hnamed
  · exact (not_deleted_delivered hwhole hrun hstay c hd).elim

end Reports

namespace HandoffRace

theorem filesOf_queued (c : ClipId) : filesOf queued c =
    if c = "c1" then ⟨some (.bytes [0]), some (.sidecar clip), none, none, none, none⟩
    else ⟨none, none, none, none, none, none⟩ := by
  by_cases hc : c = "c1" <;> simp [filesOf, queued, FileMap.get_put, hc]

theorem allWhole_queued : AllWhole queued := by
  intro c
  rw [filesOf_queued]
  split_ifs with hc
  · have hlen : [(0 : UInt8)].length = clip.byteSize.toNat := rfl
    exact .pending hc.symm hlen rfl
  · exact .absent

theorem lists_nil {fs : Fs} {d : Dir} (h : ∀ c x, fs.get (.queue d c x) = none) :
    fs.Lists (fun p => p.inDir d) [] := by
  refine ⟨List.nodup_nil, fun p => ⟨fun hp => (List.not_mem_nil hp).elim, ?_⟩⟩
  rintro ⟨hin, hsome⟩
  cases p with
  | source name => simp [Path.inDir] at hin
  | directory dir => simp [Path.inDir] at hin
  | queue d' c x =>
    simp only [Path.inDir, decide_eq_true_eq] at hin
    subst hin
    simp [h c x] at hsome

theorem lists_queued {d : Dir} (hd : d ≠ .pending) : queued.Lists (fun p => p.inDir d) [] :=
  lists_nil fun c x => by simp [queued, FileMap.get_put, hd]

theorem lists_pending_queued : queued.Lists (fun p => p.inDir .pending)
    [.sidecar .pending "c1", .media .pending "c1"] := by
  refine ⟨by simp, fun p => ?_⟩
  cases p with
  | source name => simp [Path.inDir]
  | directory dir => simp [Path.inDir]
  | queue d s x => cases d <;> cases x <;> simp [Path.inDir, queued, FileMap.get_put]

/-- A sweep in a queue of one clip at most. -/
def sweep : Act PolicyOutcome := applyPolicy .release ⟨1, 1, .dropOldestUndelivered⟩ 1

def report : PolicyOutcome := ⟨[⟨"c1", .bothExceeded, 0, 0⟩], .ok ()⟩

/-- The sweep reads the sidecar, and finds the clip gone when it evicts it. -/
theorem runsTo_census : ∃ k, RunsTo SweepEnv sweep queued (.ask (.read (.sidecar .pending "c1")) k)
      queued ∧ RunsTo SweepEnv (k (.ok (.sidecar clip))) handed (.pure report) handed := by
  refine ⟨_, runsTo_ask (.readDir .inflight) (.ok [])
      (.inl ⟨rfl, _, lists_queued (by decide), rfl⟩) <|
    runsTo_ask (.readDir .delivered) (.ok [])
      (.inl ⟨rfl, _, lists_queued (by decide), rfl⟩) <|
    runsTo_ask (.readDir .pending) (.ok _) (.inl ⟨rfl, _, lists_pending_queued, rfl⟩) <|
    .refl _ _, ?_⟩
  exact runsTo_ask (.removeFile (.media .pending "c1")) (.error .notFound) (.inl ⟨rfl, rfl⟩) <|
    runsTo_ask (.removeFile (.sidecar .pending "c1")) (.error .notFound) (.inl ⟨rfl, rfl⟩) <|
    .refl _ _

theorem second_inRange : minUtc ≤ 1 * nanosPerSec ∧ 1 * nanosPerSec ≤ maxUtc := by decide

def secondClip : ClipQueueEntry :=
  .new "c2" (.ofSecs 1 second_inRange) (.ofSecs 1 second_inRange) 1

/-- Two clips in `pending/`, and the file of a third. -/
def crowded : Fs :=
  ((queued.put (.media .pending "c2") (.bytes [1])).put (.sidecar .pending "c2")
    (.sidecar secondClip)).put (.source "clip.mp4") (.bytes [1])

theorem filesOf_crowded (c : ClipId) : filesOf crowded c =
    if c = "c2" then ⟨some (.bytes [1]), some (.sidecar secondClip), none, none, none, none⟩
    else filesOf queued c := by
  by_cases hc : c = "c2"
  · subst hc
    simp [filesOf, crowded, queued, FileMap.get_put]
  · simp [filesOf, crowded, FileMap.get_put, hc]

theorem allWhole_crowded : AllWhole crowded := by
  intro c
  rw [filesOf_crowded]
  split_ifs with hc
  · have hlen : [(1 : UInt8)].length = secondClip.byteSize.toNat := rfl
    exact .pending hc.symm hlen rfl
  · exact allWhole_queued c

theorem lists_crowded {d : Dir} (hd : d ≠ .pending) : crowded.Lists (fun p => p.inDir d) [] :=
  lists_nil fun c x => by simp [crowded, queued, FileMap.get_put, hd]

theorem lists_pending_crowded : crowded.Lists (fun p => p.inDir .pending)
    [.sidecar .pending "c2", .media .pending "c2", .sidecar .pending "c1",
      .media .pending "c1"] := by
  refine ⟨by simp, fun p => ?_⟩
  cases p with
  | source name => simp [Path.inDir]
  | directory dir => simp [Path.inDir]
  | queue d s x =>
    by_cases h1 : s = "c1" <;> by_cases h2 : s = "c2" <;> cases d <;> cases x <;>
      simp [Path.inDir, crowded, queued, FileMap.get_put, h1, h2]

/-- A sweep in a queue of two clips at most. -/
def sweepOfTwo : Act PolicyOutcome := applyPolicy .release ⟨2, 100, .dropOldestUndelivered⟩ 1

def reportOfOne : PolicyOutcome := ⟨[⟨"c1", .maxClipsExceeded, 1, 1⟩], .ok ()⟩

/-- The older clip without its media. -/
def halfEvicted : Fs := crowded.del (.media .pending "c1")

/-- The younger clip is handed off by then. -/
def halfEvictedHanded : Fs :=
  movedInflight halfEvicted (.bytes [1]) (startAttempt secondClip secondClip.capturedAt)

theorem runsTo_halfEvicted : ∃ k,
    RunsTo (Party.Fair Nominal (fun _ => True) .capture) sweepOfTwo crowded
      (.ask (.removeFile (.media .pending "c1")) k) crowded ∧
    RunsTo (Party.Fair Nominal (fun _ => True) .capture) (k (.ok ())) halfEvictedHanded
      (.pure reportOfOne) (halfEvictedHanded.del (.sidecar .pending "c1")) := by
  refine ⟨_, runsTo_ask (.readDir .inflight) (.ok [])
      ⟨⟨rfl, _, lists_crowded (by decide), rfl⟩, trivial⟩ <|
    runsTo_ask (.readDir .delivered) (.ok [])
      ⟨⟨rfl, _, lists_crowded (by decide), rfl⟩, trivial⟩ <|
    runsTo_ask (.readDir .pending) (.ok _) ⟨⟨rfl, _, lists_pending_crowded, rfl⟩, trivial⟩ <|
    runsTo_ask (.read (.sidecar .pending "c2")) (.ok (.sidecar secondClip))
      ⟨⟨rfl, rfl⟩, trivial⟩ <|
    runsTo_ask (.read (.sidecar .pending "c1")) (.ok (.sidecar clip)) ⟨⟨rfl, rfl⟩, trivial⟩ <|
    .refl _ _, ?_⟩
  exact runsTo_ask (.removeFile (.sidecar .pending "c1")) (.ok ()) ⟨⟨rfl, rfl⟩, trivial⟩ <|
    .refl _ _

/-- Where nothing fails but for missing files, no sidecar is stuck. -/
theorem not_sidecarStuck {α : Type} {a b : Pool Req Rep (Party.Returns α) Fs}
    {tr : List (Move Party Rep × Pool Req Rep (Party.Returns α) Fs)}
    (hrun : Exec (Party.Step Nominal) a tr b) (d : Dir) (c : ClipId) :
    ¬SidecarStuck d c (history .capture tr) := by
  rintro ⟨err, herr, hmem⟩
  obtain ⟨p, hp⟩ := mem_history.mp hmem
  obtain ⟨tr₁, tr₂, a, rfl, -, hstep, -⟩ := hrun.split hp
  cases hstep with
  | @answer P fs u _ _ _ _ _ hv =>
    have hv' : Nominal fs (.removeFile (.sidecar d c)) (.error err) u := hv
    simp only [Nominal] at hv'
    split at hv'
    · exact herr (Except.error.inj hv'.1)
    · cases hv'.1

/-- The younger clip is handed off between the two removals of the older. -/
theorem runsTo_handed : RunsTo (Party.Fair Nominal (fun _ => True) .runner)
    (RunnerOp.inflight secondClip secondClip.capturedAt).prog halfEvicted (.pure (.ok ()))
    halfEvictedHanded := by
  have hmove : RunsTo Nominal (RunnerOp.inflight secondClip secondClip.capturedAt).prog halfEvicted
      (.pure (.ok ())) halfEvictedHanded := by
    refine runsTo_pure ((runs_bind _ _ _ _ _).mpr
      ⟨.ok (startAttempt secondClip secondClip.capturedAt), halfEvictedHanded, ?_, rfl, rfl⟩)
    exact runs_transitionInflight.mpr (Or.inr ⟨.bytes [1], rfl, rfl, rfl⟩)
  exact hmove.mono fun _ _ _ _ hv => ⟨hv, fun _ _ _ => trivial⟩

end HandoffRace

open HandoffRace

/-- A clip that is handed off between the census and its eviction is reported evicted while it lies
in `inflight/`. -/
theorem handed_off_clip_reported_evicted :
    ∃ (tr : List (Move Party Rep × Pool Req Rep (Party.Returns PolicyOutcome) Fs))
      (b : Pool Req Rep (Party.Returns PolicyOutcome) Fs),
      AllWhole queued ∧ Exec (Party.Step SweepEnv) ⟨Party.beside sweep, queued⟩ tr b ∧
      b.prog .capture = .pure report ∧ b.prog .runner = .pure (.ok ()) ∧
      "c1" ∈ evicted report.evictions ∧ (filesOf b.state "c1").Stored := by
  have h2 : RunsTo Nominal (RunnerOp.inflight clip clip.capturedAt).prog queued (.pure (.ok ()))
      handed := by
    refine runsTo_pure ((runs_bind _ _ _ _ _).mpr ⟨.ok (startAttempt clip clip.capturedAt), handed,
      ?_, rfl, rfl⟩)
    exact runs_transitionInflight.mpr (Or.inr ⟨.bytes [0], rfl, rfl, rfl⟩)
  obtain ⟨k, h1, h3⟩ := runsTo_census
  obtain ⟨tr, b, hrun, hcapture, hrunner, hstate, -⟩ := Party.exec_overtaken
    (E := Party.answers SweepEnv) (.inflight clip clip.capturedAt) h1 (.inl ⟨rfl, rfl⟩) rfl h2 h3
  have hstored : (filesOf handed "c1").Stored := Or.inr (Or.inr (Or.inl (by decide)))
  exact ⟨tr, b, allWhole_queued, hrun, hcapture, hrunner, by decide, hstate ▸ hstored⟩

/-- A sweep evicts the older of two clips while the younger is handed off. -/
theorem eviction_reports_truthful_overtaken :
    ∃ (tr : List (Move Party Rep × Pool Req Rep (Party.Returns PolicyOutcome) Fs))
      (b : Pool Req Rep (Party.Returns PolicyOutcome) Fs),
      Exec (Party.Step SweepEnv) ⟨Party.beside sweepOfTwo, crowded⟩ tr b ∧
      b.prog .capture = .pure reportOfOne ∧ b.prog .runner = .pure (.ok ()) ∧
      evicted reportOfOne.evictions = ["c1"] ∧ ¬(filesOf b.state "c1").Stored ∧
      (filesOf b.state "c2").inflightSidecar ≠ none := by
  obtain ⟨k, h1, h3⟩ := runsTo_halfEvicted
  obtain ⟨tr, b, hrun, hcapture, hrunner, hstate, -⟩ := Party.exec_overtaken
    (.inflight secondClip secondClip.capturedAt) h1
    ⟨⟨rfl, rfl⟩, fun _ => ⟨by decide, by decide⟩⟩ rfl runsTo_handed h3
  have hnominal := (Party.exec_fair_iff.mp hrun).1
  -- the run is one of a sweep that could meet other errors
  have hmore : ∀ i s r v t, Party.Fair Nominal (fun _ => True) i s r v t →
      Party.Fair SweepEnv (fun _ => True) i s r v t := by
    rintro (_ | _) s r v t ⟨hv, hfair⟩
    · exact ⟨Or.inl hv, hfair⟩
    · exact ⟨hv, hfair⟩
  obtain ⟨hrun', hstay, -⟩ := Party.exec_fair_iff.mp (hrun.mono fun a m c hstep =>
    hstep.mono hmore)
  obtain ⟨hgone, -, -⟩ := eviction_reports_truthful allWhole_crowded hrun' hcapture hrunner hstay
    (not_sidecarStuck hnominal .pending)
  have hin : (filesOf (halfEvictedHanded.del (.sidecar .pending "c1")) "c2").inflightSidecar ≠
      none := by decide
  exact ⟨tr, b, hrun', hcapture, hrunner, rfl, hgone "c1" (by decide), hstate ▸ hin⟩

end Perchstation
