import Perchstation.Identity.Enroll
import Perchstation.Identity.Interrupted

/-!
# Key survival — the station key over runs of `enroll`

Without `--force` every run of `enroll` that finds `station.key` saves the same key again, so the key
of the first completed run stays the station's, exactly if no run is stopped between the two renames
of its save: the next run then finds no key, mints one, and sweeps the directories that hold the old.
-/

namespace Perchstation

open Resumption

namespace Identity

variable {pki : Pki} {run : EnrollRun pki} {spki : pki.Spki} {s t : Disk}

/-- `load_keypair` finds a key with the public key `spki` in the directory. -/
def HoldsKey (pki : Pki) (spki : pki.Spki) (folder : Option Folder) : Prop :=
  ∃ k, keypairIn pki folder = .ok k ∧ pki.spki k = spki

/-- One of the directories holds the key. -/
def KeyOnDisk (pki : Pki) (spki : pki.Spki) (s : Disk) : Prop := ∃ d, HoldsKey pki spki (s.get d)

/-- `enroll` without `--force`, stopped anywhere, its end included. -/
def PlainEnroll (pki : Pki) (s : Disk) (run : EnrollRun pki) (t : Disk) : Prop :=
  run.force = false ∧ Reaches Steady (enroll run) s t

/-- The run is stopped between the two renames of its save. -/
def TornEnroll (s : Disk) (run : EnrollRun pki) (t : Disk) : Prop :=
  ∃ k opts, Runs Steady (prepare run) s (.ok (k, opts)) s ∧ BetweenRenames opts s t

/-- The next `enroll` loads the key, and at no step of the run the disk is without it. -/
def KeySurvives (pki : Pki) (spki : pki.Spki) (s : Disk) (run : EnrollRun pki) (t : Disk) : Prop :=
  (∃ k, Runs Steady (loadKeypair pki) t (.ok k) t ∧ pki.spki k = spki) ∧
    ∀ w, Reaches Steady (enroll run) s w → KeyOnDisk pki spki w

/-- A key that is written as PEM is read back with the same public key. -/
def PemRoundTrips (pki : Pki) : Prop :=
  ∀ k, ∃ k', pki.fromPem (.text (pki.serializePem k)) = .ok k' ∧ pki.spki k' = pki.spki k

theorem holdsKey_staged {k : pki.KeyPair} {opts : SaveOptions} (hpem : PemRoundTrips pki)
    (hk : opts.stationKeyPem = .text (pki.serializePem k)) :
    HoldsKey pki (pki.spki k) (some (staged opts)) := by
  obtain ⟨k', hk', hspki⟩ := hpem k
  have hne : stationKeyFile ≠ identityFile := by decide
  have hread : asText (readIn (some (staged opts)) stationKeyFile) =
      .ok (.text (pki.serializePem k)) := by
    simp [readIn, get_staged, hne, hk, asText]
  refine ⟨k', ?_, hspki⟩
  rw [keypairIn, hread]
  simp only [hk']

/-- Where a run of `enroll` may be stopped. -/
theorem stop_enroll (h : Reaches Steady (enroll run) s t) :
    t.get .credentials = s.get .credentials ∨ TornEnroll s run t ∨
      ∃ k opts, Runs Steady (prepare run) s (.ok (k, opts)) s ∧
        t.get .credentials = some (staged opts) := by
  rcases (reaches_bind _ _ _ _).mp h with hprep | ⟨r, u, hprep, hrest⟩
  · rw [eq_of_reads (within_prepare run) hprep]
    exact Or.inl rfl
  obtain rfl := eq_of_reads (within_prepare run) hprep.reaches
  cases r with
  | error err =>
    obtain rfl := reaches_pure.mp hrest
    exact Or.inl rfl
  | ok prepared =>
    obtain ⟨k, opts⟩ := prepared
    have hsave : Reaches Steady (save pki opts) u t :=
      reaches_bind_pure hrest fun a => by cases a <;> exact ⟨_, rfl⟩
    rcases stop_save hsave with hsame | hbetween | hnew
    · exact Or.inl hsame
    · exact Or.inr (Or.inl ⟨k, opts, hprep, hbetween⟩)
    · exact Or.inr (Or.inr ⟨k, opts, hprep, hnew⟩)

/-- A run without `--force` that finds the key saves a key with the same public key. -/
theorem holdsKey_prepared {k : pki.KeyPair} {opts : SaveOptions} (hpem : PemRoundTrips pki)
    (hs : HoldsKey pki spki (s.get .credentials)) (hforce : run.force = false)
    (h : Runs Steady (prepare run) s (.ok (k, opts)) s) : HoldsKey pki spki (some (staged opts)) := by
  obtain ⟨k₀, hk₀, rfl⟩ := hs
  obtain ⟨-, hkey, reused, hchoose⟩ := runs_prepare_ok h
  obtain ⟨rfl, -⟩ := chooseKey_reused hforce hk₀ hchoose
  exact holdsKey_staged hpem hkey

theorem TornEnroll.credentials (h : TornEnroll s run t) : t.get .credentials = none := by
  obtain ⟨k, opts, -, hbetween⟩ := h
  exact hbetween.folders.1

/-- No step of a run that finds the key takes the last copy off the disk. -/
theorem keyOnDisk_of_reaches (hpem : PemRoundTrips pki)
    (hs : HoldsKey pki spki (s.get .credentials)) (hforce : run.force = false)
    (h : Reaches Steady (enroll run) s t) : KeyOnDisk pki spki t := by
  rcases stop_enroll h with hsame | ⟨k, opts, -, hbetween⟩ | ⟨k, opts, hprep, hnew⟩
  · refine ⟨.credentials, ?_⟩
    rwa [hsame]
  · refine ⟨.rotated, ?_⟩
    rwa [hbetween.folders.2.1]
  · refine ⟨.credentials, ?_⟩
    rw [hnew]
    exact holdsKey_prepared hpem hs hforce hprep

theorem holdsKey_of_not_torn (hpem : PemRoundTrips pki)
    (hs : HoldsKey pki spki (s.get .credentials)) (h : PlainEnroll pki s run t)
    (hnot : ¬ TornEnroll s run t) : HoldsKey pki spki (t.get .credentials) := by
  rcases stop_enroll h.2 with hsame | htorn | ⟨k, opts, hprep, hnew⟩
  · rwa [hsame]
  · exact absurd htorn hnot
  · rw [hnew]
    exact holdsKey_prepared hpem hs h.1 hprep

/-- One run of `enroll`: the key survives it exactly if it is not stopped between the renames. -/
theorem PlainEnroll.survives_iff (hpem : PemRoundTrips pki)
    (hs : HoldsKey pki spki (s.get .credentials)) (h : PlainEnroll pki s run t) :
    ¬ TornEnroll s run t ↔ KeySurvives pki spki s run t := by
  constructor
  · intro hnot
    obtain ⟨k, hk, hspki⟩ := holdsKey_of_not_torn hpem hs h hnot
    exact ⟨⟨k, runs_loadKeypair.mpr ⟨hk.symm, rfl⟩, hspki⟩,
      fun w hw => keyOnDisk_of_reaches hpem hs h.1 hw⟩
  · rintro ⟨⟨k, hload, -⟩, -⟩ htorn
    have hk := (runs_loadKeypair.mp hload).1
    rw [htorn.credentials] at hk
    cases hk

/-- A completed `enroll` leaves the key it chose. -/
theorem holdsKey_of_enroll {identity : StationIdentity} (hpem : PemRoundTrips pki)
    (h : Runs Steady (enroll run) s (.ok identity) t) :
    ∃ k opts, Runs Steady (prepare run) s (.ok (k, opts)) s ∧
      HoldsKey pki (pki.spki k) (t.get .credentials) := by
  obtain ⟨⟨k, opts⟩, u, hprep, hrest⟩ := h.bind_ok fun _ => ⟨_, rfl⟩
  obtain ⟨rfl, hkey, -⟩ := runs_prepare_ok hprep
  obtain ⟨_, w, hsave, hend⟩ := hrest.bind_ok fun _ => ⟨_, rfl⟩
  obtain ⟨-, rfl⟩ := hend
  obtain ⟨existed, x, hinstall, hsettle⟩ := hsave.bind_ok fun _ => ⟨_, rfl⟩
  have hx := credentials_of_install (loose_of_steady hinstall)
  have hw := credentials_of_runs (within_settle pki existed) (loose_of_steady hsettle)
  refine ⟨k, opts, hprep, ?_⟩
  rw [hw, hx]
  exact holdsKey_staged hpem hkey

/-- After a completed `enroll` and any runs without `--force`, each stopped anywhere: the key of the
completed run is what every next run loads, and its last copy is never removed, exactly if no run is
stopped between the two renames of its save. -/
theorem station_key_survives_iff {run₀ : EnrollRun pki} {s₀ : Disk} {identity : StationIdentity}
    {tr : List (EnrollRun pki × Disk)} (hpem : PemRoundTrips pki)
    (h₀ : Runs Steady (enroll run₀) s₀ (.ok identity) s) (h : Exec (PlainEnroll pki) s tr t) :
    ∃ k opts, Runs Steady (prepare run₀) s₀ (.ok (k, opts)) s₀ ∧
      (∃ k', Runs Steady (loadKeypair pki) s (.ok k') s ∧ pki.spki k' = pki.spki k) ∧
      ((∀ a run u, Exec.Takes (PlainEnroll pki) s tr a run u → ¬ TornEnroll a run u) ↔
        ∀ a run u, Exec.Takes (PlainEnroll pki) s tr a run u →
          KeySurvives pki (pki.spki k) a run u) := by
  obtain ⟨k, opts, hprep, hkey⟩ := holdsKey_of_enroll hpem h₀
  obtain ⟨k', hk', hspki⟩ := hkey
  refine ⟨k, opts, hprep, ⟨k', runs_loadKeypair.mpr ⟨hk'.symm, rfl⟩, hspki⟩, ?_⟩
  refine h.forall_good_iff (I := fun u => HoldsKey pki (pki.spki k) (u.get .credentials))
    ⟨k', hk', hspki⟩ ?_ ?_
  · exact fun a run u ha hstep hgood => holdsKey_of_not_torn hpem ha hstep hgood
  · exact fun a run u ha hstep => hstep.survives_iff hpem ha

/-! ## Two runs and a stop -/

theorem TornEnroll.plainEnroll (h : TornEnroll s run t) (hforce : run.force = false) :
    PlainEnroll pki s run t := by
  obtain ⟨k, opts, hprep, hbetween⟩ := h
  exact ⟨hforce, (reaches_bind _ _ _ _).mpr (Or.inr ⟨_, s, hprep,
    (reaches_bind _ _ _ _).mpr (Or.inl hbetween.saveStop)⟩)⟩

/-- A run whose keypair generator would give `key`, and whose server confirms any. -/
def plainRun (key : String) : EnrollRun Pki.plain where
  force := false
  qr := .ok ()
  generated := .ok key
  csr _ := .ok ()
  confirm _ := .ok ⟨1, .text "leaf", .text "ca"⟩
  perchpubUrl := "https://perchpub"
  enrolledAt := .ofSecs 0 DateTime.epoch_inRange

theorem pemRoundTrips_plain : PemRoundTrips Pki.plain := fun k => ⟨k, rfl, rfl⟩

/-- Without a key on disk the run saves the generated one. -/
theorem runs_enroll_absent (key : String) (hnone : s.get .credentials = none) :
    ∃ identity, Runs Steady (enroll (plainRun key)) s (.ok identity)
      (freshDisk s { enrollment key with overwrite := false }) := by
  have hprep : Runs Steady (prepare (plainRun key)) s
      (.ok (key, { enrollment key with overwrite := false })) s := by
    have hpeek : Runs Steady previousStationId s none s := by
      rw [previousStationId, runs_bind]
      refine ⟨.ok none, s, ?_, rfl, rfl⟩
      rw [peekExistingStationId, runs_bind_of_look fun _ _ => runs_readToString, hnone]
      exact ⟨rfl, rfl⟩
    have hchoose : Runs Steady (chooseKey (plainRun key)) s (.ok (key, false)) s := by
      rw [chooseKey, if_neg (by simp [plainRun]), runs_bind_of_look fun _ _ => runs_loadKeypair, hnone]
      exact ⟨rfl, rfl⟩
    exact (runs_bind _ _ _ _ _).mpr ⟨_, _, hpeek,
      (runs_bind _ _ _ _ _).mpr ⟨_, _, hchoose, rfl, rfl⟩⟩
  obtain ⟨identity, hid⟩ := loaded_staged_iff.mpr (certParses_enrollment key)
  have hsave : Runs Steady (save Pki.plain { enrollment key with overwrite := false }) s
      (.ok identity) (freshDisk s { enrollment key with overwrite := false }) := by
    rw [← hid]
    exact runs_save_absent hnone
  exact ⟨identity, (runs_bind _ _ _ _ _).mpr ⟨_, _, hprep,
    (runs_bind _ _ _ _ _).mpr ⟨_, _, hsave, rfl, rfl⟩⟩⟩

/-- The disk after a first `enroll`. -/
theorem freshDisk_empty (key : String) :
    freshDisk .empty { enrollment key with overwrite := false } = enrolled key := by
  ext1 d
  rw [get_freshDisk, get_enrolled]
  rfl

theorem runs_enroll_blank (key : String) :
    ∃ identity, Runs Steady (enroll (plainRun key)) FileMap.empty (.ok identity) (enrolled key) := by
  have h := runs_enroll_absent key (FileMap.get_empty (β := Folder) _)
  rwa [freshDisk_empty] at h

/-- The next run finds the key. -/
theorem runs_prepare_enrolled (key next : String) :
    Runs Steady (prepare (plainRun next)) (enrolled key) (.ok (key, enrollment key))
      (enrolled key) := by
  have hcreds : (enrolled key).get .credentials = some (staged (enrollment key)) := by
    rw [get_enrolled, if_pos rfl]
  have hpeek : Runs Steady previousStationId (enrolled key) (some 1) (enrolled key) := by
    rw [previousStationId, runs_bind]
    refine ⟨.ok (some 1), _, ?_, rfl, rfl⟩
    rw [peekExistingStationId, runs_bind_of_look fun _ _ => runs_readToString, hcreds]
    simp [readIn, get_staged, asText, decodeIdentity, enrollment]
  have hkey : keypairIn Pki.plain ((enrolled key).get .credentials) = .ok key := by
    have hne : stationKeyFile ≠ identityFile := by decide
    simp [keypairIn, hcreds, readIn, get_staged, hne, asText, Pki.plain, enrollment]
  have hchoose : Runs Steady (chooseKey (plainRun next)) (enrolled key) (.ok (key, true))
      (enrolled key) := by
    rw [chooseKey, if_neg (by simp [plainRun]), runs_bind_of_look fun _ _ => runs_loadKeypair, hkey]
    exact ⟨rfl, rfl⟩
  exact (runs_bind _ _ _ _ _).mpr ⟨_, _, hpeek,
    (runs_bind _ _ _ _ _).mpr ⟨_, _, hchoose, rfl, rfl⟩⟩

/-- It may be stopped between the renames of its save. -/
theorem tornEnroll_torn (key next : String) :
    TornEnroll (enrolled key) (plainRun next) (torn key key) :=
  ⟨key, enrollment key, runs_prepare_enrolled key next, betweenRenames_torn key key⟩

/-- A second run stopped in its save, with the files staged, keeps the key. -/
theorem station_key_survives_staged : ∃ spki u,
    PlainEnroll Pki.plain (enrolled "a") (plainRun "b") u ∧
      u.get .staging = some (staged (enrollment "a")) ∧
      KeySurvives Pki.plain spki (enrolled "a") (plainRun "b") u := by
  obtain ⟨identity, h₀⟩ := runs_enroll_blank "a"
  have hstop : PlainEnroll Pki.plain (enrolled "a") (plainRun "b")
      (stagedDisk (enrolled "a") (enrollment "a")) :=
    ⟨rfl, (reaches_bind _ _ _ _).mpr (Or.inr ⟨_, _, runs_prepare_enrolled "a" "b",
      (reaches_bind _ _ _ _).mpr (Or.inl (saveStop_stagedDisk ⟨rfl, rfl⟩))⟩)⟩
  have hrun := Exec.nil.snoc hstop
  obtain ⟨k, opts, -, -, hiff⟩ := station_key_survives_iff pemRoundTrips_plain h₀ hrun
  refine ⟨Pki.plain.spki k, _, hstop, by rw [get_stagedDisk, if_pos rfl],
    hiff.mp ?_ _ _ _ (Exec.takes_last .nil)⟩
  intro a run u htakes htorn
  rcases Exec.takes_snoc .nil htakes with ⟨tr₁, tr₂, htr, -⟩ | ⟨rfl, rfl, rfl⟩
  · simp at htr
  · cases htorn.credentials.symm.trans (stagedDisk_enrolled "a" (enrollment "a"))

/-- A renewal stopped between its renames, and the next `enroll` replaces the station's key: no copy of
the first is left. -/
theorem torn_enroll_loses_key :
    (∃ identity, Runs Steady (enroll (plainRun "a")) FileMap.empty (.ok identity) (enrolled "a")) ∧
    KeyOnDisk Pki.plain "a" (enrolled "a") ∧
    ∃ u, Exec (PlainEnroll Pki.plain) (enrolled "a") [(plainRun "b", torn "a" "a"), (plainRun "b", u)]
        u ∧
      Runs Steady (loadKeypair Pki.plain) u (.ok "b") u ∧ ¬ KeyOnDisk Pki.plain "a" u := by
  have hkey : ∀ {folder : Option Folder} (key : String),
      folder = some (staged (enrollment key)) → keypairIn Pki.plain folder = .ok key := by
    rintro folder key rfl
    have hne : stationKeyFile ≠ identityFile := by decide
    simp [keypairIn, readIn, get_staged, hne, asText, Pki.plain, enrollment]
  obtain ⟨identity, h₀⟩ := runs_enroll_blank "a"
  have htorn := tornEnroll_torn "a" "b"
  obtain ⟨identity', h₂⟩ := runs_enroll_absent "b" htorn.credentials
  have hlast := get_freshDisk (torn "a" "a") { enrollment "b" with overwrite := false }
  refine ⟨⟨identity, h₀⟩, ⟨.credentials, "a", hkey "a" (by rw [get_enrolled, if_pos rfl]), rfl⟩, _,
    (Exec.nil.snoc (htorn.plainEnroll rfl)).snoc ⟨rfl, h₂.reaches⟩, ?_, ?_⟩
  · exact runs_loadKeypair.mpr ⟨(hkey "b" (by rw [hlast, if_pos rfl]; rfl)).symm, rfl⟩
  · rintro ⟨d, k, hk, hspki⟩
    rw [hlast] at hk
    split_ifs at hk
    · obtain rfl : "b" = k := Except.ok.inj ((hkey "b" rfl).symm.trans hk)
      have hba : ("b" : String) = "a" := hspki
      exact absurd hba (by decide)
    · cases hk

end Identity

end Perchstation
