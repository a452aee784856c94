import Perchstation.Identity.SaveRules
import Perchstation.Lib.Execution

/-!
# Interrupted saves — which credentials load after a stop

A save may be stopped between any two of its requests, and the next save may be stopped again.  After
each stop `load` finds one whole set of files, the old or the new, exactly if no stop fell between the
two renames of a save: there `credentials/` does not exist.
-/

namespace Perchstation

open Resumption

namespace Identity

variable {pki : Pki} {opts : SaveOptions} {s t : Disk}

/-- The files of a complete set. -/
def credentialFiles : List String := [stationCertFile, caChainFile, stationKeyFile, identityFile]

/-- The folder has the four files, and `load` accepts it. -/
def Whole (pki : Pki) (folder : Folder) : Prop :=
  (∀ name ∈ credentialFiles, (folder.get name).isSome) ∧
    ∃ identity, loaded pki (some folder) = .ok identity

theorem whole_staged_iff : Whole pki (staged opts) ↔ CertParses pki opts := by
  have hfiles : ∀ name ∈ credentialFiles, ((staged opts).get name).isSome := by
    intro name hname
    simp only [credentialFiles, List.mem_cons, List.not_mem_nil, or_false] at hname
    rw [get_staged]
    rcases hname with rfl | rfl | rfl | rfl
    · simp [stationCertFile, identityFile, stationKeyFile, caChainFile]
    · simp [caChainFile, identityFile, stationKeyFile]
    · simp [stationKeyFile, identityFile]
    · simp
  exact ⟨fun h => loaded_staged_iff.mp h.2, fun h => ⟨hfiles, loaded_staged_iff.mpr h⟩⟩

/-- A save may be stopped anywhere, its end included. -/
def SaveStop (pki : Pki) (s : Disk) (opts : SaveOptions) (t : Disk) : Prop :=
  Reaches Steady (save pki opts) s t

/-- The stop is not between the renames, and a new set that has been put in place has a certificate
that parses. -/
def CleanStop (pki : Pki) (s : Disk) (opts : SaveOptions) (t : Disk) : Prop :=
  ¬ BetweenRenames opts s t ∧ (t.get .credentials = some (staged opts) → CertParses pki opts)

/-- `load` succeeds and reads the whole old set or the whole new one. -/
def LoadsWhole (pki : Pki) (s : Disk) (opts : SaveOptions) (t : Disk) : Prop :=
  ∃ folder identity, (s.get .credentials = some folder ∨ folder = staged opts) ∧
    t.get .credentials = some folder ∧ (∀ name ∈ credentialFiles, (folder.get name).isSome) ∧
    Runs Steady (load pki) t (.ok identity) t

theorem Whole.loadsWhole {folder : Folder} (h : Whole pki folder)
    (hfrom : s.get .credentials = some folder ∨ folder = staged opts)
    (ht : t.get .credentials = some folder) : LoadsWhole pki s opts t := by
  obtain ⟨hfiles, identity, hid⟩ := h
  exact ⟨folder, identity, hfrom, ht, hfiles, runs_load.mpr ⟨by rw [ht, hid], rfl⟩⟩

theorem LoadsWhole.whole (h : LoadsWhole pki s opts t) :
    ∃ folder, t.get .credentials = some folder ∧ Whole pki folder := by
  obtain ⟨folder, identity, -, ht, hfiles, hload⟩ := h
  have hid := (runs_load.mp hload).1
  rw [ht] at hid
  exact ⟨folder, ht, hfiles, identity, hid.symm⟩

theorem BetweenRenames.saveStop (h : BetweenRenames opts s t) : SaveStop pki s opts t := by
  obtain ⟨u, w, hrefuse, hstage, hrot⟩ := h
  obtain ⟨old, hold, -⟩ := renameFolder_ok (Or.inl (runs_request.mp hrot))
  have hexists : Steady w (.folderExists .credentials) true w := ⟨by rw [hold]; rfl, rfl⟩
  refine (reaches_bind _ _ _ _).mpr (Or.inl ?_)
  refine (reaches_bind _ _ _ _).mpr (Or.inr ⟨_, u, hrefuse, ?_⟩)
  refine (reaches_bind _ _ _ _).mpr (Or.inr ⟨_, w, hstage, ?_⟩)
  refine (reaches_bind _ _ _ _).mpr (Or.inr ⟨true, w, runs_request.mpr hexists, ?_⟩)
  refine (reaches_bind _ _ _ _).mpr (Or.inl ?_)
  exact (reaches_bind _ _ _ _).mpr (Or.inl (reaches_request.mpr
    (Or.inr ⟨_, runs_request.mp hrot⟩)))

/-- One stopped save: the stop is clean exactly if a whole set loads after it. -/
theorem SaveStop.clean_iff (h : SaveStop pki s opts t)
    (hs : ∃ old, s.get .credentials = some old ∧ Whole pki old) :
    CleanStop pki s opts t ↔ LoadsWhole pki s opts t := by
  obtain ⟨old, hold, hwhole⟩ := hs
  constructor
  · rintro ⟨hnot, hparse⟩
    rcases stop_save h with hsame | hbetween | hnew
    · exact hwhole.loadsWhole (Or.inl hold) (hsame.trans hold)
    · exact absurd hbetween hnot
    · exact (whole_staged_iff.mpr (hparse hnew)).loadsWhole (Or.inr rfl) hnew
  · intro hload
    obtain ⟨folder, ht, hfolder⟩ := hload.whole
    refine ⟨fun hbetween => ?_, fun hnew => ?_⟩
    · rw [hbetween.folders.1] at ht
      cases ht
    · rw [hnew] at ht
      obtain rfl := Option.some.inj ht
      exact whole_staged_iff.mp hfolder

/-- After each stop of a run of interrupted saves a whole set loads, the one from before or the new
one, exactly if every stop is clean. -/
theorem interrupted_saves_whole_iff {old : Folder} {tr : List (SaveOptions × Disk)}
    (hold : s.get .credentials = some old) (hwhole : Whole pki old)
    (h : Exec (SaveStop pki) s tr t) :
    (∀ a opts u, Exec.Takes (SaveStop pki) s tr a opts u → CleanStop pki a opts u) ↔
      ∀ a opts u, Exec.Takes (SaveStop pki) s tr a opts u → LoadsWhole pki a opts u := by
  refine h.forall_good_iff (I := fun u => ∃ old, u.get .credentials = some old ∧ Whole pki old)
    ⟨old, hold, hwhole⟩ ?_ ?_
  · intro a opts u ha hstop hclean
    exact ((hstop.clean_iff ha).mp hclean).whole
  · intro a opts u ha hstop
    exact hstop.clean_iff ha

/-! ## A stop between the renames -/

/-- Parsers for short texts: a key is its own PEM, every certificate runs to the epoch. -/
def Pki.plain : Pki where
  KeyPair := String
  Spki := String
  spki := id
  notAfter _ := .ok 0
  fromPem
    | .text s => .ok s
    | _ => .error "not PEM"
  serializePem := id

/-- An enrollment under the key `key`. -/
def enrollment (key : String) : SaveOptions where
  stationId := 1
  enrolledAt := .ofSecs 0 DateTime.epoch_inRange
  perchpubUrl := "https://perchpub"
  stationKeyPem := .text key
  stationCertPem := .text "leaf"
  caChainPem := .text "ca"
  overwrite := true

/-- A station enrolled under the key `key`. -/
def enrolled (key : String) : Disk := FileMap.empty.put .credentials (staged (enrollment key))

/-- Between the renames of the next enrollment. -/
def torn (key next : String) : Disk :=
  ((stagedDisk (enrolled key) (enrollment next)).del .credentials).put .rotated
    (staged (enrollment key))

theorem get_enrolled (key : String) (d : CredDir) : (enrolled key).get d =
    if d = .credentials then some (staged (enrollment key)) else none := by
  simp only [enrolled, FileMap.get_put, FileMap.get_empty]

theorem certParses_enrollment (key : String) : CertParses Pki.plain (enrollment key) :=
  ⟨.ofSecs 0 ⟨by decide, by decide⟩, rfl⟩

theorem betweenRenames_torn (key next : String) :
    BetweenRenames (enrollment next) (enrolled key) (torn key next) := by
  have hrot : Steady (stagedDisk (enrolled key) (enrollment next))
      (.renameFolder .credentials .rotated) (.ok ()) (torn key next) := by
    simp only [Steady, get_stagedDisk, get_enrolled, torn]
    simp
  exact ⟨_, _, ⟨rfl, rfl⟩, runs_stage _ _, runs_request.mpr hrot⟩

/-- A save may be stopped once it has staged the new set. -/
theorem saveStop_stagedDisk (hrefuse : Runs Steady (refuse opts) s (.ok ()) s) :
    SaveStop pki s opts (stagedDisk s opts) := by
  refine (reaches_bind _ _ _ _).mpr (Or.inl ?_)
  refine (reaches_bind _ _ _ _).mpr (Or.inr ⟨_, s, hrefuse, ?_⟩)
  exact (reaches_bind _ _ _ _).mpr (Or.inr ⟨_, _, runs_stage s opts, reaches_self _ _⟩)

theorem stagedDisk_enrolled (key : String) (opts : SaveOptions) :
    (stagedDisk (enrolled key) opts).get .credentials = some (staged (enrollment key)) := by
  rw [get_stagedDisk, if_neg (by decide), if_neg (by decide), get_enrolled, if_pos rfl]

/-- A save stopped with the new set whole in `staging` leaves the old set in place; the next is stopped
there as well. -/
theorem interrupted_saves_whole_staged : ∃ u,
    Exec (SaveStop Pki.plain) (enrolled "a")
      [(enrollment "b", stagedDisk (enrolled "a") (enrollment "b")), (enrollment "c", u)] u ∧
    u.get .staging = some (staged (enrollment "c")) ∧
    LoadsWhole Pki.plain (stagedDisk (enrolled "a") (enrollment "b")) (enrollment "c") u := by
  have hcreds : (enrolled "a").get .credentials = some (staged (enrollment "a")) := by
    rw [get_enrolled, if_pos rfl]
  have hwhole : Whole Pki.plain (staged (enrollment "a")) :=
    whole_staged_iff.mpr (certParses_enrollment "a")
  have hallowed : ∀ key s, Runs Steady (refuse (enrollment key)) s (.ok ()) s :=
    fun key s => ⟨rfl, rfl⟩
  have hrun₁ : Exec (SaveStop Pki.plain) (enrolled "a") _ _ :=
    Exec.nil.snoc (saveStop_stagedDisk (hallowed "b" _))
  have hrun₂ := hrun₁.snoc (saveStop_stagedDisk (hallowed "c" _))
  have hkept : (stagedDisk (stagedDisk (enrolled "a") (enrollment "b")) (enrollment "c")).get
      .credentials = some (staged (enrollment "a")) := by
    rw [get_stagedDisk, if_neg (by decide), if_neg (by decide), stagedDisk_enrolled]
  refine ⟨_, hrun₂, by rw [get_stagedDisk, if_pos rfl],
    (interrupted_saves_whole_iff hcreds hwhole hrun₂).mp ?_ _ _ _ (Exec.takes_last hrun₁)⟩
  -- neither stop falls between the renames: `credentials/` is there
  intro a opts u htakes
  rcases Exec.takes_snoc hrun₁ htakes with htakes | ⟨rfl, rfl, rfl⟩
  · rcases Exec.takes_snoc .nil htakes with ⟨tr₁, tr₂, htr, -⟩ | ⟨rfl, rfl, rfl⟩
    · simp at htr
    · refine ⟨fun hbetween => ?_, fun _ => certParses_enrollment "b"⟩
      cases hbetween.folders.1.symm.trans (stagedDisk_enrolled "a" (enrollment "b"))
  · refine ⟨fun hbetween => ?_, fun _ => certParses_enrollment "c"⟩
    cases hbetween.folders.1.symm.trans hkept

/-- A save stopped between its renames leaves no set that loads. -/
theorem torn_save_loads_nothing :
    (∃ old, (enrolled "a").get .credentials = some old ∧ Whole Pki.plain old) ∧
    Exec (SaveStop Pki.plain) (enrolled "a") [(enrollment "b", torn "a" "b")] (torn "a" "b") ∧
    (enrollment "b").overwrite = true ∧ CertParses Pki.plain (enrollment "b") ∧
    ∀ identity u, ¬ Runs Steady (load Pki.plain) (torn "a" "b") (.ok identity) u := by
  have hbetween := betweenRenames_torn "a" "b"
  refine ⟨⟨staged (enrollment "a"), by rw [get_enrolled, if_pos rfl],
    whole_staged_iff.mpr (certParses_enrollment "a")⟩, .snoc .nil hbetween.saveStop, rfl,
    certParses_enrollment "b", fun identity u hload => ?_⟩
  have hid := (runs_load.mp hload).1
  rw [hbetween.folders.1] at hid
  cases hid

end Identity

end Perchstation
