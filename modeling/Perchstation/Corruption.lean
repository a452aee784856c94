import Perchstation.Admission
import Perchstation.Queue.Joins

/-!
# Corruption — undecodable sidecars at boot and at admission

Both readers stop at the first sidecar that does not decode: the recovery loop of
`reconcile_inflight`, before the entries that sort after it, and the census of `apply_policy`, before
any verdict.  A file named `.json` has no extension and is no sidecar: `ComponentNames` leaves it out
of recovery, and what is said of the census is meant of sidecars with a stem.
-/

namespace Perchstation

open Resumption QueueStore

variable {fs t u w : Fs} {l : List Path} {c s : ClipId} {e : ClipQueueEntry}

/-! ## Recovery -/

/-- `serve` at boot: a failed reconciliation is fatal. -/
def bootReconcile : Act (Except (String × QueueError) (List ClipQueueEntry)) := do
  match ← reconcileInflight with
  | .error err => return .error ("boot reconciliation", err)
  | .ok recovered => return .ok recovered

theorem runs_bootReconcile {E : Env Req Rep Fs}
    {v : Except (String × QueueError) (List ClipQueueEntry)} :
    Runs E bootReconcile fs v t ↔
      ∃ r, Runs E reconcileInflight fs r t ∧ v = r.mapError fun err =>
        ("boot reconciliation", err) := by
  rw [bootReconcile, runs_bind]
  constructor
  · rintro ⟨r, u, hr, h⟩
    cases r with
    | error err =>
      obtain ⟨rfl, rfl⟩ := h
      exact ⟨_, hr, rfl⟩
    | ok recovered =>
      obtain ⟨rfl, rfl⟩ := h
      exact ⟨_, hr, rfl⟩
  · rintro ⟨r, hr, rfl⟩
    refine ⟨r, t, hr, ?_⟩
    cases r with
    | error err => exact ⟨rfl, rfl⟩
    | ok recovered => exact ⟨rfl, rfl⟩

/-- `clean` is the store without the undecodable sidecars of `inflight/`. -/
def WithoutUndecodable (fs clean : Fs) : Prop :=
  ∀ p, (∃ s, p = .queue .inflight s .json ∧ Undecodable fs p ∧ clean.get p = none) ∨
    (¬ (∃ s, p = .queue .inflight s .json ∧ Undecodable fs p) ∧ clean.get p = fs.get p)

/-- Recovery succeeds, `serve` goes on, and every decodable entry of `inflight/` is treated as if the
undecodable sidecars were absent. -/
def RecoveryIsolates (E : Env Req Rep Fs) (fs : Fs) : Prop :=
  (∃ v t, Runs E bootReconcile fs v t) ∧
  ∀ v t, Runs E bootReconcile fs v t → ∃ r, v = .ok r ∧
    ∀ clean v' t', WithoutUndecodable fs clean → Runs E bootReconcile clean v' t' →
      ∃ r', v' = .ok r' ∧ ∀ s e, fs.get (.queue .inflight s .json) = some (.sidecar e) →
        SameClip t t' e.clipId ∧ ∀ e', e'.clipId = e.clipId → (e' ∈ r ↔ e' ∈ r')

/-- Where the clip-ids in `inflight/` are path components, boot recovery isolates corrupt sidecars
exactly if there are none in `inflight/`, and no sidecar there names a clip whose sidecar sorts after
it. -/
theorem recovery_isolates_iff {E : Env Req Rep Fs} (hE : JoinsComponents E)
    (hnames : ComponentNames fs) : RecoveryIsolates E fs ↔
    (∀ s, ¬ Undecodable fs (.queue .inflight s .json)) ∧
      ∀ s e, fs.get (.queue .inflight s .json) = some (.sidecar e) →
        (fs.get (.queue .inflight e.clipId .json)).isSome →
        ¬ (Path.queue .inflight s .json).fileName <
          (Path.queue .inflight e.clipId .json).fileName := by
  obtain ⟨v, t, hr⟩ := exists_runs_reconcileInflight fs
  have hjoined : ∀ {v t}, Runs E reconcileInflight fs v t ↔ Runs Nominal reconcileInflight fs v t :=
    runs_reconcileInflight_joined hE hnames
  have hboot := runs_bootReconcile.mpr ⟨v, hjoined.mpr hr, rfl⟩
  constructor
  · rintro ⟨-, hall⟩
    obtain ⟨r, hok, -⟩ := hall _ _ hboot
    refine (reconcileInflight_ok_iff hr).mp ?_
    cases v with
    | error err => cases hok
    | ok recovered => exact ⟨recovered, rfl⟩
  · intro hcond
    obtain ⟨r, rfl⟩ := (reconcileInflight_ok_iff hr).mpr hcond
    refine ⟨⟨_, t, hboot⟩, fun v t hv => ?_⟩
    obtain ⟨v₁, hr₁, rfl⟩ := runs_bootReconcile.mp hv
    obtain ⟨rfl, rfl⟩ := reconcileInflight_unique hr (hjoined.mp hr₁)
    refine ⟨r, rfl, fun clean v' t' hclean hv' => ?_⟩
    -- without undecodable sidecars, the two stores are one
    obtain rfl : clean = fs := by
      ext1 p
      rcases hclean p with ⟨s, rfl, hund, -⟩ | ⟨-, hp⟩
      · exact absurd hund (hcond.1 s)
      · exact hp
    obtain ⟨v₂, hr₂, rfl⟩ := runs_bootReconcile.mp hv'
    obtain ⟨rfl, rfl⟩ := reconcileInflight_unique hr (hjoined.mp hr₂)
    exact ⟨r, rfl, fun s e _ => ⟨SameClip.refl _ _, fun _ _ => Iff.rfl⟩⟩

/-- Two clips complete in `inflight/`. -/
def completeInflight : Fs :=
  (((FileMap.empty.put (.queue .inflight "a" .mp4) Station.footage).put
    (.queue .inflight "a" .json) (.sidecar (.new "a" Station.epoch Station.epoch 1))).put
    (.queue .inflight "b" .mp4) Station.footage).put
    (.queue .inflight "b" .json) (.sidecar (.new "b" Station.epoch Station.epoch 1))

theorem get_completeInflight {d : Dir} {x : Ext} {b : Blob}
    (h : completeInflight.get (.queue d c x) = some b) : (c = "a" ∨ c = "b") ∧
      (x = .json ∧ b = .sidecar (.new c Station.epoch Station.epoch 1) ∨
        x = .mp4 ∧ b = Station.footage) := by
  simp only [completeInflight, FileMap.get_put, FileMap.get_empty] at h
  split_ifs at h with h₁ h₂ h₃ h₄
  · obtain ⟨-, rfl, rfl⟩ := Path.queue.inj h₁
    exact ⟨Or.inr rfl, Or.inl ⟨rfl, (Option.some.inj h).symm⟩⟩
  · obtain ⟨-, rfl, rfl⟩ := Path.queue.inj h₂
    exact ⟨Or.inr rfl, Or.inr ⟨rfl, (Option.some.inj h).symm⟩⟩
  · obtain ⟨-, rfl, rfl⟩ := Path.queue.inj h₃
    exact ⟨Or.inl rfl, Or.inl ⟨rfl, (Option.some.inj h).symm⟩⟩
  · obtain ⟨-, rfl, rfl⟩ := Path.queue.inj h₄
    exact ⟨Or.inl rfl, Or.inr ⟨rfl, (Option.some.inj h).symm⟩⟩

/-- Both are recovered. -/
theorem recovery_isolates_iff_complete : RecoveryIsolates Nominal completeInflight := by
  have hsidecar : ∀ {c e}, completeInflight.get (.queue .inflight c .json) = some (.sidecar e) →
      e.clipId = c := by
    intro c e he
    obtain ⟨-, ⟨-, hb⟩ | ⟨hx, -⟩⟩ := get_completeInflight he
    · rw [Blob.sidecar.inj hb]
      rfl
    · cases hx
  have hname : ∀ {c : ClipId}, c = "a" ∨ c = "b" → IsComponent c = true := by
    rintro c (rfl | rfl)
    · simp [IsComponent]
    · simp [IsComponent]
  have hnames : ComponentNames completeInflight := by
    constructor
    · intro d c x _ hsome
      obtain ⟨b, hb⟩ := Option.isSome_iff_exists.mp hsome
      exact hname (get_completeInflight hb).1
    · intro c e he
      rw [hsidecar he]
      exact hname (get_completeInflight he).1
  refine (recovery_isolates_iff (fun _ _ _ _ _ => Iff.rfl) hnames).mpr ⟨?_, ?_⟩
  · rintro s ⟨data, hdata⟩
    obtain ⟨-, ⟨-, hb⟩ | ⟨hx, -⟩⟩ := get_completeInflight hdata
    · cases hb
    · cases hx
  · intro s e he _
    rw [hsidecar he]
    exact lt_irrefl _

/-- A clip complete in `inflight/`, and a sidecar beside it that does not decode. -/
def corruptInflight : Fs :=
  ((FileMap.empty.put (.queue .inflight "a" .json) (.bytes [])).put
    (.queue .inflight "b" .mp4) Station.footage).put
    (.queue .inflight "b" .json) (.sidecar (.new "b" Station.epoch Station.epoch 1))

theorem get_corruptInflight :
    corruptInflight.get (.queue .inflight "a" .json) = some (.bytes []) := by
  simp [corruptInflight, FileMap.get_put]

/-- One corrupt sidecar keeps `serve` from starting. -/
theorem corrupt_sidecar_stops_boot :
    ¬ RecoveryIsolates Nominal corruptInflight ∧
      ∀ v t, Runs Nominal bootReconcile corruptInflight v t → ∃ err, v = .error err := by
  have hfail : ∀ v t, Runs Nominal bootReconcile corruptInflight v t → ∃ err, v = .error err := by
    intro v t hv
    obtain ⟨r, hr, rfl⟩ := runs_bootReconcile.mp hv
    cases r with
    | error err => exact ⟨_, rfl⟩
    | ok recovered =>
      have hcond := (reconcileInflight_ok_iff hr).mp ⟨recovered, rfl⟩
      exact absurd ⟨[], get_corruptInflight⟩ (hcond.1 "a")
  refine ⟨?_, hfail⟩
  rintro ⟨⟨v, t, hv⟩, hall⟩
  obtain ⟨r, rfl, -⟩ := hall v t hv
  obtain ⟨err, herr⟩ := hfail _ t hv
  cases herr

/-! ## Admission -/

section Admission

variable {d : Dir} {profile : Profile} {policy : QueuePolicy} {incoming : UInt64}
  {li ld lp : List Path}

theorem decodeAll_of_undecodable (hl : fs.Lists (fun p => p.inDir d) l)
    (hu : Undecodable fs (.queue d s .json)) :
    ∃ q, Undecodable fs q ∧ decodeAll fs l = .error (.deserialise q) := by
  have hmem : Path.queue d s .json ∈ l := by
    obtain ⟨data, hdata⟩ := hu
    exact hl.mem.mpr ⟨by simp [Path.inDir], by simp [hdata]⟩
  cases hres : decodeAll fs l with
  | ok es => exact absurd hu ((decodeAll_ok hres).1 _ hmem (by simp [Path.hasExt]))
  | error err =>
    obtain ⟨q, -, -, hq, rfl⟩ := decodeAll_error (fun p hp => (hl.mem.mp hp).2) hres
    exact ⟨q, hq, rfl⟩

/-- An error of a directory's listing is that of an undecodable sidecar. -/
theorem undecodable_of_decodeAll (hl : fs.Lists (fun p => p.inDir d) l) {err : QueueError}
    (h : decodeAll fs l = .error err) : ∃ q, Undecodable fs q ∧ err = .deserialise q := by
  obtain ⟨q, -, -, hq, rfl⟩ := decodeAll_error (fun p hp => (hl.mem.mp hp).2) h
  exact ⟨q, hq, rfl⟩

/-- The census fails as soon as one sidecar of the three directories does not decode. -/
theorem censusResult_of_undecodable (hc : CensusFrom fs li ld lp) (hd : d ≠ .corrupt)
    (hu : Undecodable fs (.queue d s .json)) :
    ∃ q, Undecodable fs q ∧ censusResult fs li ld lp = .error (.deserialise q) := by
  unfold censusResult
  cases hi : decodeAll fs li with
  | error err =>
    obtain ⟨q, hq, rfl⟩ := undecodable_of_decodeAll hc.inflight hi
    exact ⟨q, hq, rfl⟩
  | ok i =>
    cases hdel : decodeAll fs ld with
    | error err =>
      obtain ⟨q, hq, rfl⟩ := undecodable_of_decodeAll hc.delivered hdel
      exact ⟨q, hq, rfl⟩
    | ok del =>
      cases hp : decodeAll fs lp with
      | error err =>
        obtain ⟨q, hq, rfl⟩ := undecodable_of_decodeAll hc.pending hp
        exact ⟨q, hq, rfl⟩
      | ok p =>
        exfalso
        have hnone : ∀ {d l es}, fs.Lists (fun p => p.inDir d) l → decodeAll fs l = .ok es →
            ¬ Undecodable fs (.queue d s .json) := by
          intro d l es hl hok hu
          obtain ⟨q, -, herr⟩ := decodeAll_of_undecodable hl hu
          rw [hok] at herr
          cases herr
        cases d with
        | pending => exact hnone hc.pending hp hu
        | inflight => exact hnone hc.inflight hi hu
        | delivered => exact hnone hc.delivered hdel hu
        | corrupt => exact hd rfl

/-- Then `apply_policy` evicts nothing and fails with a store error, whatever the policy. -/
theorem runs_applyPolicy_of_undecodable {v : PolicyOutcome} (hd : d ≠ .corrupt)
    (hu : Undecodable fs (.queue d s .json)) :
    Runs Nominal (applyPolicy profile policy incoming) fs v t →
      ∃ q, Undecodable fs q ∧ v = ⟨[], .error (.queue (.deserialise q))⟩ := by
  intro h
  obtain ⟨-, li, ld, lp, hc, hcase⟩ := runs_applyPolicy h
  obtain ⟨q, hq, hres⟩ := censusResult_of_undecodable hc hd hu
  rcases hcase with ⟨err, herr, rfl⟩ | ⟨census, -, -, hok, -⟩
  · obtain rfl := Except.error.inj (herr.symm.trans hres)
    exact ⟨q, hq, rfl⟩
  · rw [hres] at hok
    cases hok

theorem exists_runs_applyPolicy_of_undecodable (hd : d ≠ .corrupt)
    (hu : Undecodable fs (.queue d s .json)) :
    ∃ v t, Runs Nominal (applyPolicy profile policy incoming) fs v t := by
  obtain ⟨li, ld, lp, hc⟩ := exists_censusFrom fs
  obtain ⟨q, -, hres⟩ := censusResult_of_undecodable hc hd hu
  exact ⟨_, fs, runs_applyPolicy_iff.mpr
    ⟨li, ld, lp, hc, Or.inl ⟨.deserialise q, hres, rfl, rfl⟩⟩⟩

/-- With the undecodable file `data` at `d/s.json`, the policy decides, evicts and leaves every other
clip as without it, and a submission of the clip `c` does not fail with a store error. -/
def AdmissionIsolates (profile : Profile) (policy : QueuePolicy) (fs : Fs) (d : Dir) (s : ClipId)
    (data : List UInt8) (c : ClipId) (name : String) (clipMeta : ClipMeta) (incoming : UInt64) :
    Prop :=
  (∀ v t v' t', Runs Nominal (applyPolicy profile policy incoming) fs v t →
    Runs Nominal (applyPolicy profile policy incoming)
      (fs.put (.queue d s .json) (.bytes data)) v' t' →
    v' = v ∧ ∀ c', c' ≠ s → SameClip t t' c') ∧
  ∀ a t, Runs Nominal (submit profile policy c (.source name) clipMeta)
    (fs.put (.queue d s .json) (.bytes data)) a t → ∀ err, a.2 ≠ .error (.queue err)

theorem exists_submit_store_error {c : ClipId} {name : String} {clipMeta : ClipMeta} {m : Blob}
    (hd : d ≠ .corrupt) (hu : Undecodable fs (.queue d s .json))
    (hsrc : fs.get (.source name) = some m) (hlen : m.HasLen incoming) :
    ∃ a t q, Runs Nominal (submit profile policy c (.source name) clipMeta) fs a t ∧
      a = ([], .error (.queue (.deserialise q))) := by
  obtain ⟨v, t, hr⟩ : ∃ v t, Runs Nominal (applyPolicy profile policy incoming) fs v t :=
    exists_runs_applyPolicy_of_undecodable hd hu
  obtain ⟨q, -, rfl⟩ := runs_applyPolicy_of_undecodable hd hu hr
  refine ⟨_, t, q, ?_, rfl⟩
  have hmeta : Runs Nominal (metadata (.source name)) fs (.ok incoming) fs := by
    rw [runs_metadata]
    simp only [Nominal, hsrc]
    exact ⟨trivial, incoming, hlen, rfl⟩
  rw [submit, runs_bind]
  refine ⟨_, fs, hmeta, ?_⟩
  rw [runs_bind]
  exact ⟨_, t, hr, rfl, rfl⟩

/-- No corrupt sidecar in `pending/`, `inflight/` or `delivered/` is ever isolated from admission; a
sidecar has a stem, so `s` is not empty. -/
theorem admission_never_isolates {data : List UInt8} {c : ClipId} {name : String}
    {clipMeta : ClipMeta} {m : Blob} (hd : d ≠ .corrupt)
    (hsrc : fs.get (.source name) = some m) (hlen : m.HasLen incoming) :
    ¬ AdmissionIsolates profile policy fs d s data c name clipMeta incoming := by
  rintro ⟨-, hsubmit⟩
  have hu : Undecodable (fs.put (.queue d s .json) (.bytes data)) (.queue d s .json) :=
    ⟨data, by simp [FileMap.get_put]⟩
  have hsrc' : (fs.put (.queue d s .json) (.bytes data)).get (.source name) = some m := by
    simpa [FileMap.get_put] using hsrc
  obtain ⟨a, t, q, hr, rfl⟩ := exists_submit_store_error hd hu hsrc' hlen
  exact hsubmit _ t hr _ rfl

theorem admission_never_isolates_captured :
    ¬ AdmissionIsolates .release ⟨10, 1000, .dropOldestUndelivered⟩ Station.captured.fs .delivered
      "x" [] "c1" "in.mp4" ⟨Station.epoch⟩ 1 := by
  have hsrc : Station.captured.fs.get (.source "in.mp4") = some Station.footage := by
    simp [Station.captured, FileMap.get_put]
  have hlen : Station.footage.HasLen 1 := rfl
  exact admission_never_isolates (by simp) hsrc hlen

/-- An empty queue admits a clip; with one corrupt sidecar in `delivered/` it refuses every clip. -/
theorem corrupt_sidecar_blocks_admission :
    (∀ v t, Runs Nominal (applyPolicy .release ⟨10, 1000, .dropOldestUndelivered⟩ 1)
      Station.captured.fs v t → v.result = .ok ()) ∧
    (∃ v t, Runs Nominal (applyPolicy .release ⟨10, 1000, .dropOldestUndelivered⟩ 1)
      (Station.captured.fs.put (.queue .delivered "x" .json) (.bytes [])) v t) ∧
    ∀ v t, Runs Nominal (applyPolicy .release ⟨10, 1000, .dropOldestUndelivered⟩ 1)
      (Station.captured.fs.put (.queue .delivered "x" .json) (.bytes [])) v t →
      ∃ err, v.result = .error (.queue err) := by
  have hempty : ∀ d c, Station.captured.fs.get (.queue d c .json) = none := by
    intro d c
    simp [Station.captured, Station.blank, FileMap.get_put]
  have hdrained : Drained Station.captured.fs :=
    ⟨hempty .pending, hempty .inflight, fun c hs => by rw [hempty] at hs; cases hs⟩
  have hu : Undecodable (Station.captured.fs.put (.queue .delivered "x" .json) (.bytes []))
      (.queue .delivered "x" .json) := ⟨[], by simp [FileMap.get_put]⟩
  have hone : (1 : UInt32) ≤ (⟨10, 1000, .dropOldestUndelivered⟩ : QueuePolicy).maxClips := by
    decide
  have hmax : (1 : UInt64) ≤ (⟨10, 1000, .dropOldestUndelivered⟩ : QueuePolicy).maxBytes := by
    decide
  refine ⟨fun v t hr => (hdrained.runs_applyPolicy hone hmax hr).1.mpr (Or.inl rfl),
    exists_runs_applyPolicy_of_undecodable (by simp) hu, fun v t hr => ?_⟩
  obtain ⟨q, -, rfl⟩ := runs_applyPolicy_of_undecodable (by simp) hu hr
  exact ⟨_, rfl⟩

end Admission

end Perchstation
