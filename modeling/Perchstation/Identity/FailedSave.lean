import Perchstation.Identity.Interrupted

/-!
# Failed saves — what a save that returns an error leaves

With at most one failing request, a save that ends before the promotion leaves `credentials/` as it
was.  After the promotion nothing is undone: a failing sync or reload, or a certificate that does not
parse, is reported with the new files in place.  The refusal looks for `identity.json` alone, so a
`credentials/` without it is replaced.
-/

namespace Perchstation

open Resumption

namespace Identity

variable {pki : Pki} {opts : SaveOptions} {s t : Disk}
  {r : Except IdentityError StationIdentity}

/-- How far a save gets, and where its failing request lies. -/
inductive SaveCourse
  /-- It ends before the promotion. -/
  | short
  /-- It gets past the promotion, and no request after it fails, those of the cleanup apart. -/
  | promoted
  /-- After the promotion the sync of the data directory or a read of the reload fails. -/
  | late
  deriving DecidableEq, Repr

/-- The save runs on that course, with at most one failing request. -/
def SaveRun (pki : Pki) (opts : SaveOptions) (s : Disk) :
    SaveCourse → Except IdentityError StationIdentity → Disk → Prop
  | .short, r, t => ∃ err, r = .error err ∧
      RunsAtMostOnce Steady CredFaulty (install opts) s (.error err) t
  | .promoted, r, t => ∃ existed u v w x,
      RunsAtMostOnce Steady CredFaulty (install opts) s (.ok existed) u ∧
      Runs Steady (askCred .syncDataDir) u (.ok v) w ∧
      RunsAtMostOnce Steady CredFaulty (cleanup existed) w () x ∧ Runs Steady (load pki) x r t
  | .late, r, t => ∃ existed u, Runs Steady (install opts) s (.ok existed) u ∧
      ((∃ source, CredFaulty u .syncDataDir (.error source) t ∧ r = .error (.io .dataDir source)) ∨
        ∃ v w x, Runs Steady (askCred .syncDataDir) u (.ok v) w ∧
          Runs Steady (cleanup existed) w () x ∧ RunsOnce Steady CredFaulty (load pki) x r t)

/-- Every save with at most one failing request runs on one of the courses. -/
theorem exists_course (h : RunsAtMostOnce Steady CredFaulty (save pki opts) s r t) :
    ∃ course, SaveRun pki opts s course r t := by
  rcases (runsAtMostOnce_bind _ _ _ _ _).mp h with ⟨a, u, hinstall, hrest⟩ | ⟨a, u, hinstall, hrest⟩
  · cases a with
    | error err =>
      obtain ⟨rfl, rfl⟩ := hrest
      exact ⟨.short, err, rfl, hinstall⟩
    | ok existed =>
      obtain ⟨v, w, hsync, hafter⟩ := (runs_bind _ _ _ _ _).mp hrest
      obtain ⟨rfl, rfl⟩ := runs_request.mp hsync
      obtain ⟨_, x, hclean, hload⟩ := (runs_bind _ _ _ _ _).mp hafter
      exact ⟨.promoted, existed, w, (), w, x, hinstall, hsync, Or.inl hclean, hload⟩
  · cases a with
    | error err => exact hrest.elim
    | ok existed =>
      rcases (runsOnce_bind _ _ _ _ _).mp hrest with ⟨v, w, hsync, hafter⟩ | ⟨v, w, hsync, hafter⟩
      · have hfault := runsOnce_request.mp hsync
        obtain ⟨⟨e, rfl⟩, rfl⟩ := hfault
        obtain ⟨rfl, rfl⟩ := hafter
        exact ⟨.late, existed, t, hinstall, Or.inl ⟨e, ⟨⟨e, rfl⟩, rfl⟩, rfl⟩⟩
      · obtain ⟨rfl, rfl⟩ := runs_request.mp hsync
        rcases (runsOnce_bind _ _ _ _ _).mp hafter with ⟨_, x, hclean, hload⟩ | ⟨_, x, hclean, hload⟩
        · exact ⟨.promoted, existed, w, (), w, x, Or.inl hinstall, hsync, Or.inr hclean, hload⟩
        · exact ⟨.late, existed, w, hinstall, Or.inr ⟨(), w, x, hsync, hclean, hload⟩⟩

/-- A reload with a failing read is an error. -/
theorem load_error (h : RunsOnce Steady CredFaulty (load pki) s r t) : ∃ err, r = .error err := by
  have hread : ∀ {u v w}, RunsOnce Steady CredFaulty (readToString .credentials identityFile) u v w →
      ∃ e, v = .error e := by
    intro u v w hv
    rcases (runsOnce_bind _ _ _ _ _).mp hv with ⟨a, x, ha, hend⟩ | ⟨a, x, -, hend⟩
    · obtain ⟨⟨e, rfl⟩, -⟩ := runsOnce_request.mp ha
      exact ⟨e, hend.1⟩
    · rcases a with e | (_ | _ | _)
      · exact hend.elim
      · exact hend.elim
      · exact hend.elim
      · exact hend.elim
  rcases (runsOnce_bind _ _ _ _ _).mp h with ⟨v, u, hv, hrest⟩ | ⟨v, u, -, hrest⟩
  · obtain ⟨e, rfl⟩ := hread hv
    exact ⟨_, hrest.1⟩
  · cases v with
    | error e => exact hrest.elim
    | ok contents =>
      dsimp only at hrest
      cases hdec : decodeIdentity contents with
      | none =>
        rw [hdec] at hrest
        exact hrest.elim
      | some file =>
        rw [hdec] at hrest
        rcases (runsOnce_bind _ _ _ _ _).mp hrest with ⟨v, w, hv, hend⟩ | ⟨v, w, -, hend⟩
        · obtain ⟨⟨e, rfl⟩, -⟩ := runsOnce_request.mp hv
          exact ⟨_, hend.1⟩
        · cases v with
          | error e => exact hend.elim
          | ok pem =>
            dsimp only at hend
            cases hparse : parseCertNotAfter pki (.file .credentials stationCertFile) pem with
            | error err =>
              rw [hparse] at hend
              exact hend.elim
            | ok certNotAfter =>
              rw [hparse] at hend
              exact hend.elim

/-- An error means that `credentials/` is what it was. -/
def UndoneOnError (s : Disk) (r : Except IdentityError StationIdentity) (t : Disk) : Prop :=
  ∀ err, r = .error err → t.get .credentials = s.get .credentials

/-- Without `overwrite` every file of `credentials/` stays. -/
def KeepsFiles (opts : SaveOptions) (s t : Disk) : Prop :=
  opts.overwrite = false → ∀ old name b, s.get .credentials = some old → old.get name = some b →
    ∃ new, t.get .credentials = some new ∧ new.get name = some b

/-- Without `overwrite` every file of `credentials/` is among the new ones. -/
def AmongNew (opts : SaveOptions) (s : Disk) : Prop :=
  opts.overwrite = false → ∀ old name b, s.get .credentials = some old → old.get name = some b →
    (staged opts).get name = some b

/-- The save ends before the promotion; or its certificate parses, no step after the promotion fails
but for the cleanup, and without `overwrite` nothing is lost; or the new files are the old. -/
def Harmless (pki : Pki) (opts : SaveOptions) (s : Disk) : SaveCourse → Prop
  | .short => True
  | .promoted => (CertParses pki opts ∧ AmongNew opts s) ∨ s.get .credentials = some (staged opts)
  | .late => s.get .credentials = some (staged opts)

/-- A save that ends before the promotion returns an error and leaves `credentials/` alone. -/
theorem SaveRun.short (h : SaveRun pki opts s .short r t) :
    (∃ err, r = .error err) ∧ t.get .credentials = s.get .credentials := by
  obtain ⟨err, hr, hinstall⟩ := h
  exact ⟨⟨err, hr⟩, credentials_of_failed_install hinstall⟩

/-- A promoted save has put the new files in place, and returns what loads from them. -/
theorem SaveRun.promoted (h : SaveRun pki opts s .promoted r t) :
    t.get .credentials = some (staged opts) ∧ r = loaded pki (some (staged opts)) := by
  obtain ⟨existed, u, v, w, x, hinstall, hsync, hclean, hload⟩ := h
  have hu := credentials_of_install hinstall.either
  have hw := get_of_steady (d := .credentials) (runs_request.mp hsync) id
  have hx := credentials_of_runs (within_cleanup existed) hclean.either
  obtain ⟨hr, rfl⟩ := runs_load.mp hload
  have hnew : t.get .credentials = some (staged opts) := hx.trans (hw.trans hu)
  exact ⟨hnew, by rw [hr, hnew]⟩

/-- A save that fails after the promotion returns an error with the new files in place. -/
theorem SaveRun.late (h : SaveRun pki opts s .late r t) :
    (∃ err, r = .error err) ∧ t.get .credentials = some (staged opts) := by
  obtain ⟨existed, u, hinstall, hrest⟩ := h
  have hu := credentials_of_install (loose_of_steady hinstall)
  rcases hrest with ⟨source, hsync, hr⟩ | ⟨v, w, x, hsync, hclean, hload⟩
  · exact ⟨⟨_, hr⟩, (get_of_credFaulty (d := .credentials) hsync id).trans hu⟩
  · have hw := get_of_steady (d := .credentials) (runs_request.mp hsync) id
    have hx := credentials_of_runs (within_cleanup existed) (loose_of_steady hclean)
    have honce : RunsAtMostOnce Steady CredFaulty (load pki) x r t := Or.inr hload
    have ht := credentials_of_runs (within_load pki) honce.either
    exact ⟨load_error hload, ht.trans (hx.trans (hw.trans hu))⟩

/-- With the new files in place, the files of before stay exactly if they are among the new. -/
theorem keepsFiles_iff_amongNew (ht : t.get .credentials = some (staged opts)) :
    KeepsFiles opts s t ↔ AmongNew opts s := by
  constructor
  · intro hkeep hover old name b hold hb
    obtain ⟨new, hnew, hfile⟩ := hkeep hover old name b hold hb
    rw [ht] at hnew
    obtain rfl := Option.some.inj hnew
    exact hfile
  · intro hamong hover old name b hold hb
    exact ⟨staged opts, ht, hamong hover old name b hold hb⟩

theorem amongNew_of_staged (hs : s.get .credentials = some (staged opts)) : AmongNew opts s := by
  intro _ old name b hold hb
  rw [hs] at hold
  obtain rfl := Option.some.inj hold
  exact hb

/-- A save with at most one failing request runs on one of the courses, and on any course it changes
nothing when it returns an error, and without `overwrite` loses no file, exactly if it ends before the
promotion, or nothing is reported after it, or the new files are the old. -/
theorem failed_save_changes_nothing_iff :
    (RunsAtMostOnce Steady CredFaulty (save pki opts) s r t →
      ∃ course, SaveRun pki opts s course r t) ∧
    ∀ course, SaveRun pki opts s course r t →
      ((UndoneOnError s r t ∧ KeepsFiles opts s t) ↔ Harmless pki opts s course) := by
  refine ⟨exists_course, fun course h => ?_⟩
  cases course with
  | short =>
    obtain ⟨-, hsame⟩ := h.short
    refine iff_of_true ⟨fun _ _ => hsame, fun _ old name b hold hb => ?_⟩ trivial
    exact ⟨old, hsame.trans hold, hb⟩
  | promoted =>
    obtain ⟨hnew, hr⟩ := h.promoted
    rw [keepsFiles_iff_amongNew hnew]
    by_cases hparse : CertParses pki opts
    · obtain ⟨identity, hid⟩ := loaded_staged_iff.mpr hparse
      have hundone : UndoneOnError s r t := by
        intro err herr
        rw [hr, hid] at herr
        cases herr
      constructor
      · exact fun hboth => Or.inl ⟨hparse, hboth.2⟩
      · rintro (⟨-, hamong⟩ | hsame)
        · exact ⟨hundone, hamong⟩
        · exact ⟨hundone, amongNew_of_staged hsame⟩
    · have herr : ∃ err, r = .error err := by
        cases hload : loaded pki (some (staged opts)) with
        | ok identity => exact absurd (loaded_staged_iff.mp ⟨identity, hload⟩) hparse
        | error err => exact ⟨err, by rw [hr, hload]⟩
      obtain ⟨err, herr⟩ := herr
      constructor
      · exact fun hboth => Or.inr ((hboth.1 err herr).symm.trans hnew)
      · rintro (⟨hp, -⟩ | hsame)
        · exact absurd hp hparse
        · exact ⟨fun _ _ => hnew.trans hsame.symm, amongNew_of_staged hsame⟩
  | late =>
    obtain ⟨⟨err, herr⟩, hnew⟩ := h.late
    rw [keepsFiles_iff_amongNew hnew]
    constructor
    · exact fun hboth => (hboth.1 err herr).symm.trans hnew
    · exact fun hsame => ⟨fun _ _ => hnew.trans hsame.symm, amongNew_of_staged hsame⟩

/-- The rename that would rotate the old credentials out fails: the save stops with an error and leaves
them in place. -/
theorem failed_save_changes_nothing_rotate :
    ∃ err t, RunsOnce Steady CredFaulty (save Pki.plain (enrollment "b")) (enrolled "a") (.error err)
        t ∧
      SaveRun Pki.plain (enrollment "b") (enrolled "a") .short (.error err) t ∧
      UndoneOnError (enrolled "a") (.error err) t ∧ KeepsFiles (enrollment "b") (enrolled "a") t := by
  have hstaged := stagedDisk_enrolled "a" (enrollment "b")
  have hexists : Steady (stagedDisk (enrolled "a") (enrollment "b")) (.folderExists .credentials) true
      (stagedDisk (enrolled "a") (enrollment "b")) := ⟨by rw [hstaged]; rfl, rfl⟩
  have hfault : CredFaulty (stagedDisk (enrolled "a") (enrollment "b"))
      (.renameFolder .credentials .rotated) (.error (.other 5 "Input/output error")) _ :=
    ⟨⟨_, rfl⟩, rfl⟩
  have hswap : RunsOnce Steady CredFaulty swap (stagedDisk (enrolled "a") (enrollment "b")) _ _ :=
    (runsOnce_bind _ _ _ _ _).mpr (Or.inr ⟨_, _, runs_request.mpr hexists,
      (runsOnce_bind _ _ _ _ _).mpr (Or.inl ⟨_, _,
        (runsOnce_bind _ _ _ _ _).mpr (Or.inl ⟨_, _, runsOnce_request.mpr hfault, rfl, rfl⟩),
        rfl, rfl⟩)⟩)
  have hinstall : RunsOnce Steady CredFaulty (install (enrollment "b")) (enrolled "a") _ _ :=
    (runsOnce_bind _ _ _ _ _).mpr (Or.inr ⟨.ok (), _, ⟨rfl, rfl⟩,
      (runsOnce_bind _ _ _ _ _).mpr (Or.inr ⟨_, _, runs_stage _ _, hswap⟩)⟩)
  have hcourse : SaveRun Pki.plain (enrollment "b") (enrolled "a") .short _ _ :=
    ⟨_, rfl, Or.inr hinstall⟩
  exact ⟨_, _, (runsOnce_bind _ _ _ _ _).mpr (Or.inl ⟨_, _, hinstall, rfl, rfl⟩), hcourse,
    (failed_save_changes_nothing_iff.2 _ hcourse).mpr trivial⟩

/-! ## Changed all the same -/

/-- Credentials that lost their `identity.json`. -/
def keyOnly (key : String) : Disk :=
  FileMap.empty.put .credentials (FileMap.empty.put stationKeyFile (.text key))

/-- The sync of the data directory fails, and the error comes with the new files in place; and a save
without `overwrite` replaces the key of a directory that has no `identity.json`. -/
theorem failed_save_replaces_credentials :
    (∃ err t, RunsAtMostOnce Steady CredFaulty (save Pki.plain (enrollment "b")) (enrolled "a")
        (.error err) t ∧ t.get .credentials ≠ (enrolled "a").get .credentials) ∧
    ∃ r t, Runs Steady (save Pki.plain { enrollment "b" with overwrite := false }) (keyOnly "a") r t ∧
      (∃ old, (keyOnly "a").get .credentials = some old ∧
        old.get stationKeyFile = some (.text "a")) ∧
      ∀ new, t.get .credentials = some new → new.get stationKeyFile ≠ some (.text "a") := by
  have hne : stationKeyFile ≠ identityFile := by decide
  have hkey : ∀ opts : SaveOptions, (staged opts).get stationKeyFile = some opts.stationKeyPem := by
    intro opts
    rw [get_staged, if_neg hne, if_pos rfl]
  constructor
  · have hcreds : (enrolled "a").get .credentials = some (staged (enrollment "a")) := by
      rw [get_enrolled, if_pos rfl]
    have hrefuse : Runs Steady (refuse (enrollment "b")) (enrolled "a") (.ok ()) (enrolled "a") :=
      ⟨rfl, rfl⟩
    have hinstall := runs_install_present hcreds hrefuse
    have hfault : CredFaulty (swappedDisk (enrolled "a") (enrollment "b") (staged (enrollment "a")))
        .syncDataDir (.error (.other 5 "Input/output error")) _ := ⟨⟨_, rfl⟩, rfl⟩
    refine ⟨_, _, (runsAtMostOnce_bind _ _ _ _ _).mpr (Or.inr ⟨_, _, hinstall,
      (runsOnce_bind _ _ _ _ _).mpr (Or.inl ⟨_, _, runsOnce_request.mpr hfault, rfl, rfl⟩)⟩), ?_⟩
    intro hsame
    rw [get_swappedDisk, if_pos rfl, hcreds] at hsame
    have hfile := congrArg (fun f : Folder => f.get stationKeyFile) (Option.some.inj hsame)
    simp [hkey, enrollment] at hfile
  · have hcreds : (keyOnly "a").get .credentials =
        some (FileMap.empty.put stationKeyFile (.text "a")) := by
      simp [keyOnly, FileMap.get_put]
    have hpeek : Runs Steady peekExistingStationId (keyOnly "a") (.ok none) (keyOnly "a") := by
      rw [peekExistingStationId, runs_bind_of_look fun _ _ => runs_readToString, hcreds]
      simp [readIn, FileMap.get_put, hne.symm, asText]
    have hrefuse : Runs Steady (refuse { enrollment "b" with overwrite := false }) (keyOnly "a")
        (.ok ()) (keyOnly "a") := by
      rw [refuse, if_neg (by simp)]
      exact (runs_bind _ _ _ _ _).mpr ⟨_, _, hpeek, rfl, rfl⟩
    refine ⟨_, _, runs_save_present hcreds hrefuse, ⟨_, hcreds, ?_⟩, fun new hnew => ?_⟩
    · rw [FileMap.get_put, if_pos rfl]
    · rw [FileMap.get_del, if_neg (by decide), get_swappedDisk, if_pos rfl] at hnew
      obtain rfl := Option.some.inj hnew
      rw [hkey]
      simp [enrollment]

end Identity

end Perchstation
