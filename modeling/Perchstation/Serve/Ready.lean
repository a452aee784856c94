import Perchstation.Daemon.Stops
import Perchstation.Serve.Boot

/-!
# Ready — the outcomes of a boot of `serve`

On a disk that runs of `enroll` have worked on, wherever they were stopped, a boot without faults fails
for the configuration, for credentials that are not there, or for what the URL and TLS libraries say,
each with an exit code of its own and before it has touched the queue.  Otherwise it is ready, with the
identity and the client of the last save, and the queue as a restart of the station leaves it.
-/

namespace Perchstation

open Interleaving Resumption QueueStore Identity

/-! ## The disks of `enroll` -/

/-- Only runs of `enroll` have worked on the disk, each of them stopped anywhere. -/
inductive Enrolling (lib : EnrollLibrary) : Disk → Prop
  | blank : Enrolling lib .empty
  | enroll {disk : Disk} {inp : EnrollInputs lib} {t : Disk × History EdgeReq (EdgeRep lib.Detail)} :
      Enrolling lib disk → Reaches (beside Steady) (Command.run lib inp) (disk, []) t →
      Enrolling lib t.1

/-- What a run of `enroll` saves: its certificate parses. -/
def SavedBy (lib : EnrollLibrary) (opts : SaveOptions) : Prop :=
  (∃ inp confirmed csr overwrite, opts = Command.saveOptions lib inp confirmed csr overwrite) ∧
    CertParses lib.pki opts

section Enrolled

variable {lib : EnrollLibrary} {disk : Disk} {inp : EnrollInputs lib}

/-- The certificate of an answer that is accepted parses. -/
theorem savedBy_of_accepted {material : EnrollmentSessionMaterial} {csr : EnrollmentCsr lib.x}
    {confirmed : Confirm.ConfirmedEnrollment} {v : Except String (EdgeResponse lib.Detail)}
    (h : Command.Accepted inp material csr confirmed v) (overwrite : Bool) :
    SavedBy lib (Command.saveOptions lib inp confirmed csr overwrite) := by
  obtain ⟨response, parsed, -, -, -, hvalid⟩ := h.answered
  obtain ⟨-, -, -, -, -, hchain⟩ := Confirm.validateResponse_eq_ok_iff.mp hvalid
  obtain ⟨notAfter, hparse, -⟩ := parseCertNotAfter_of_accepted
    { KeyPair := lib.x.KeyPair, Spki := lib.x.PublicKey, spki := lib.x.publicKeyDer,
      notAfter := lib.notAfter, fromPem := lib.rcgen.fromPem,
      serializePem := lib.rcgen.serializePem } (.file .credentials stationCertFile) hchain
  exact ⟨⟨inp, confirmed, csr, overwrite, rfl⟩, notAfter, hparse⟩

/-- There are no credentials, or whole ones. -/
theorem Enrolling.credentials (h : Enrolling lib disk) : disk.get .credentials = none ∨
    ∃ opts, SavedBy lib opts ∧ disk.get .credentials = some (staged opts) := by
  induction h with
  | blank => exact Or.inl (FileMap.get_empty _)
  | enroll _ hreach ih =>
    rcases Command.reaches_run hreach with rfl | ⟨_, material, csr, overwrite, -, hreach⟩
    · exact ih
    rcases Command.reaches_confirmAndPersist hreach with ⟨hdisk, -⟩ | ⟨confirmed, hf, hsave⟩
    · rw [hdisk]
      exact ih
    obtain ⟨before, v, -, hv⟩ := Command.accepted_of_exchange hf
    rcases stop_save hsave with hold | hbetween | hnew
    · rw [hold]
      exact ih
    · exact Or.inl hbetween.folders.1
    · exact Or.inr ⟨_, savedBy_of_accepted hv overwrite, hnew⟩

end Enrolled

/-! ## What a boot depends on -/

/-- The configuration is complete, and gives this upload base. -/
def RuntimeConfig.Targets (cfg : RuntimeConfig) (urls : UrlLibrary) (base : String) : Prop :=
  cfg.toOperatorConfig.ensureRuntimeReady = .ok () ∧ cfg.uploadBase urls = .ok base

/-- The TLS library takes what was saved, and the URL library the base. -/
def Connects (lib : StationLibrary) (opts : SaveOptions) (base : String) : Prop :=
  lib.tls opts.stationCertPem opts.stationKeyPem (some opts.caChainPem) = .ok () ∧
    ∃ url, lib.urls.parse (PerchpubClient.trimEndSlashes base) = .ok url

/-- The credentials in hand are those of the save. -/
structure CredentialsOf (lib : StationLibrary) (registry : RedactionRegistry) (opts : SaveOptions)
    (creds : Credentials) : Prop where
  identity : loaded lib.pki (some (staged opts)) = .ok creds.identity
  registry : creds.registry = registerStationKeySecrets registry (lib.textOf opts.stationKeyPem)
  inner : creds.inner = clientOf opts

/-- What the writer lets out has no line of the key in it, but for lines the placeholder could
complete. -/
def Hides (registry : RedactionRegistry) (keyPem : Text) : Prop :=
  ∀ line ∈ (lines keyPem).map trim, line ≠ [] → isBoundary line = false → '[' ∉ line → ']' ∉ line →
    ¬ line <:+: redactedWord → ∀ buf, ¬ line <:+: registry.write buf

theorem hides_registerStationKeySecrets (registry : RedactionRegistry) (keyPem : Text) :
    Hides (registerStationKeySecrets registry keyPem) keyPem := by
  intro line hline hne hbody hopen hclose hword buf
  have hmem : line ∈ (registerStationKeySecrets registry keyPem).secrets := by
    refine RedactionRegistry.mem_registerAll hne (Or.inr (List.mem_filter.mpr ⟨hline, ?_⟩))
    simp [hne, hbody]
  rw [RedactionRegistry.write_eq]
  exact not_infix_scrub_of_mem (apart_redactedPlaceholder hopen hclose hword) hne hmem

/-- The same queue has the same sidecars. -/
theorem SameQueue.sidecarsIn_eq {fs t : Fs} (h : SameQueue fs t) (e : Dir) :
    sidecarsIn t e = sidecarsIn fs e := by
  ext p
  rw [mem_sidecarsIn, mem_sidecarsIn]
  refine exists_congr fun c => and_congr_right ?_
  rintro rfl
  rw [h _ rfl]

namespace Serve

section Credentials

variable {lib : StationLibrary} {registry : RedactionRegistry} {opts : SaveOptions} {s t : Disk}
  {base : String}

theorem runs_loadCredentials_absent {r : Except ServeFailure Credentials}
    (hnone : s.get .credentials = none) (h : Runs Steady (loadCredentials lib registry base) s r t) :
    r = .error (.unrecoverable (.notEnrolled (.file .credentials identityFile))) ∧ t = s := by
  rw [loadCredentials, runs_bind_of_look fun _ _ => runs_load, hnone] at h
  exact h

theorem runs_buildInner_saved {r : Except ClientBuildError MtlsClient}
    (hs : s.get .credentials = some (staged opts)) (h : Runs Steady (buildInner lib.tls) s r t) :
    r = buildInner.build lib.tls opts.stationCertPem opts.stationKeyPem (some opts.caChainPem) ∧
      t = s := by
  obtain ⟨hcert, hkey, hca⟩ := readIn_staged opts
  rw [buildInner, runs_bind_of_look fun _ _ => runs_readFile, hs, hcert] at h
  dsimp only at h
  rw [runs_bind_of_look fun _ _ => runs_readFile, hs, hkey] at h
  dsimp only at h
  rw [runs_bind_of_look fun _ _ => runs_readFile, hs, hca] at h
  exact h

/-- A client is built from the save if both libraries agree. -/
theorem runs_newClient_saved {r : Except ClientInitError (PerchpubClient × MtlsClient)}
    (hs : s.get .credentials = some (staged opts)) (h : Runs Steady (newClient lib base) s r t) :
    t = s ∧ ((Connects lib opts base ∧ ∃ client, r = .ok (client, clientOf opts)) ∨
      (¬ Connects lib opts base ∧ ∃ err, r = .error err)) := by
  rw [newClient, runs_bind] at h
  obtain ⟨built, u, hbuild, h⟩ := h
  obtain ⟨rfl, rfl⟩ := runs_buildInner_saved hs hbuild
  cases htls : lib.tls opts.stationCertPem opts.stationKeyPem (some opts.caChainPem) with
  | error message =>
    have hrefused : buildInner.build lib.tls opts.stationCertPem opts.stationKeyPem
        (some opts.caChainPem) = .error (.tlsConfig message) := by
      rw [buildInner.build, htls]
    rw [hrefused] at h
    refine ⟨h.2, Or.inr ⟨fun hconn => ?_, _, h.1⟩⟩
    rw [hconn.1] at htls
    cases htls
  | ok _ =>
    have hbuilt : buildInner.build lib.tls opts.stationCertPem opts.stationKeyPem
        (some opts.caChainPem) = .ok (clientOf opts) := by
      rw [buildInner.build, htls]
      rfl
    rw [hbuilt] at h
    dsimp only at h
    cases hurl : lib.urls.parse (PerchpubClient.trimEndSlashes base) with
    | error message =>
      rw [hurl] at h
      refine ⟨h.2, Or.inr ⟨fun hconn => ?_, _, h.1⟩⟩
      obtain ⟨url, hok⟩ := hconn.2
      rw [hok] at hurl
      cases hurl
    | ok url =>
      rw [hurl] at h
      exact ⟨h.2, Or.inl ⟨⟨htls, url, hurl⟩, _, h.1⟩⟩

theorem runs_loadCredentials_saved {r : Except ServeFailure Credentials}
    (hsaved : SavedBy lib.toEnrollLibrary opts) (hs : s.get .credentials = some (staged opts))
    (h : Runs Steady (loadCredentials lib registry base) s r t) :
    t = s ∧ ((Connects lib opts base ∧ ∃ creds, r = .ok creds ∧ CredentialsOf lib registry opts creds) ∨
      (¬ Connects lib opts base ∧ ∃ err, r = .error (.io err))) := by
  obtain ⟨⟨inp, confirmed, csr, overwrite, rfl⟩, hparses⟩ := hsaved
  obtain ⟨identity, hid⟩ := loaded_staged_iff.mpr hparses
  have hkey : asText (readIn (s.get .credentials) stationKeyFile) =
      .ok (.text (lib.rcgen.serializePem csr.keypair)) := by
    rw [hs, (readIn_staged _).2.1]
    rfl
  rw [loadCredentials, runs_bind_of_look fun _ _ => runs_load, hs, hid] at h
  dsimp only at h
  rw [runs_bind_of_look fun _ _ => runs_readToString, hkey] at h
  dsimp only at h
  rw [runs_bind] at h
  obtain ⟨made, u, hclient, h⟩ := h
  obtain ⟨rfl, hcases⟩ := runs_newClient_saved hs hclient
  rcases hcases with ⟨hconn, client, rfl⟩ | ⟨hconn, err, rfl⟩
  · exact ⟨h.2, Or.inl ⟨hconn, _, h.1, hid, rfl, rfl⟩⟩
  · exact ⟨h.2, Or.inr ⟨hconn, _, h.1⟩⟩

end Credentials

section Queue

variable {station : Config} {identity : StationIdentity} {d : Daemon} {fs t : Fs}

/-- The count of `count_pending`. -/
theorem countEntries_pending {l : List Path} (hl : fs.Lists (fun p => p.inDir .pending) l) :
    (countEntries 0 l).toNat = min (sidecarsIn fs .pending).card (2 ^ 32 - 1) := by
  have hset : sidecarsIn fs .pending = (l.filter (·.hasExt .json)).toFinset := by
    ext p
    rw [mem_sidecarsIn, List.mem_toFinset, mem_sidecars hl]
  have hzero : (0 : UInt32).toNat = 0 := rfl
  rw [countEntries_toNat, hset, List.toFinset_card_of_nodup (hl.nodup.filter _)]
  omega

/-- The queue is brought in order as by a restart of the station. -/
theorem runs_prepareQueue (hi : d.Inv) {r : Except ServeFailure (List ClipQueueEntry × UInt32)}
    (h : Runs Nominal prepareQueue d.station.fs r t) :
    ∃ recovered n d', r = .ok (recovered, n) ∧
      DaemonStep station identity d (.booted recovered) d' ∧ d'.station.fs = t ∧
      n.toNat = min (sidecarsIn t .pending).card (2 ^ 32 - 1) := by
  rw [prepareQueue, runs_bind] at h
  obtain ⟨opened, u, hopen, h⟩ := h
  obtain ⟨rfl, rfl⟩ := runs_openStore.mp hopen
  dsimp only at h
  rw [runs_bind] at h
  obtain ⟨v, w, hrec, h⟩ := h
  obtain ⟨-, -, recovered, rfl, -⟩ :=
    runs_reconcileInflight_files hi.station.legible hi.station.named hrec
  dsimp only at h
  rw [runs_bind] at h
  obtain ⟨counted, w', hcount, h⟩ := h
  obtain ⟨rfl, l, hl, rfl⟩ := runs_countPending.mp hcount
  obtain ⟨rfl, rfl⟩ := h
  exact ⟨recovered, _, _, rfl, .boot hrec, rfl, countEntries_pending hl⟩

end Queue

section Ends

variable {lib : StationLibrary} {dirs : Finset String} {fs : Fs}

/-- The request reads a file. -/
def ReadsFile (r : CredReq) : Prop := ∃ d name, r = .readFile d name

theorem within_buildInner : Within ReadsFile (buildInner lib.tls) := by
  have hread : ∀ name, Within ReadsFile (readFile .credentials name) := fun name =>
    within_request ⟨_, _, rfl⟩
  refine (hread _).bind fun cert => ?_
  split
  · exact within_pure _
  refine (hread _).bind fun key => ?_
  split
  · exact within_pure _
  refine (hread _).bind fun ca => ?_
  split <;> exact within_pure _

theorem within_loadCredentials (registry : RedactionRegistry) (base : String) :
    Within ReadsFile (loadCredentials lib registry base) := by
  have htext : ∀ name, Within ReadsFile (readToString .credentials name) := fun name =>
    within_readToString ⟨_, _, rfl⟩
  have hload : Within ReadsFile (load lib.pki) := by
    refine (htext _).bind fun contents => ?_
    split
    · exact within_pure _
    split
    · exact within_pure _
    refine (within_request ⟨_, _, rfl⟩ : Within ReadsFile (readFile _ _)).bind fun pem => ?_
    split
    · exact within_pure _
    split <;> exact within_pure _
  have hclient : Within ReadsFile (newClient lib base) := by
    refine within_buildInner.bind fun built => ?_
    split
    · exact within_pure _
    split <;> exact within_pure _
  refine hload.bind fun identity => ?_
  split
  · exact within_pure _
  · exact within_pure _
  refine (htext _).bind fun key => ?_
  split
  · exact within_pure _
  refine hclient.bind fun made => ?_
  split <;> exact within_pure _

theorem exists_runs_loadCredentials (registry : RedactionRegistry) (base : String) (s : Disk) :
    ∃ r t, Runs Steady (loadCredentials lib registry base) s r t := by
  refine exists_runs_of_within (fun u r hr => ?_) (within_loadCredentials registry base) s
  obtain ⟨d, name, rfl⟩ := hr
  have hread : Runs Steady (readFile d name) u _ u := runs_readFile.mpr ⟨rfl, rfl⟩
  exact ⟨_, _, runs_request.mp hread⟩

theorem exists_runs_prepareQueue (hl : Legible fs) (hn : Named fs) : ∃ ready t,
    Runs Nominal prepareQueue fs (.ok ready) t ∧ SameOutside fs t := by
  obtain ⟨v, t, hrec⟩ := exists_runs_reconcileInflight fs
  obtain ⟨hout, -, recovered, rfl, -⟩ := runs_reconcileInflight_files hl hn hrec
  obtain ⟨l, hlists⟩ := t.exists_lists fun p => p.inDir .pending
  exact ⟨_, t, (runs_bind _ _ _ _ _).mpr ⟨_, fs, runs_openStore.mpr ⟨rfl, rfl⟩,
    (runs_bind _ _ _ _ _).mpr ⟨_, t, hrec, (runs_bind _ _ _ _ _).mpr
      ⟨_, t, runs_countPending.mpr ⟨rfl, l, hlists, rfl⟩, rfl, rfl⟩⟩⟩, hout⟩

/-- The staged files have lengths. -/
def StagedMeasurable (fs : Fs) : Prop :=
  ∀ name b, fs.get (.source name) = some b → ∃ n, b.HasLen n

theorem exists_runs_purgeLoop (hm : StagedMeasurable fs) (report : PurgeReport) (names : List String) :
    ∃ r t, Runs (Quiet dirs) (purgeLoop report (names.map .ok)) fs r t := by
  induction names generalizing fs report with
  | nil => exact ⟨_, fs, rfl, rfl⟩
  | cons name rest ih =>
    rw [List.map_cons, purgeLoop]
    cases hget : fs.get (.source name) with
    | none =>
      have hstat : Quiet dirs fs (.statStaging name)
          (if name ∈ dirs then .ok none else .error .notFound) fs := ⟨rfl, by rw [hget]⟩
      obtain ⟨r, t, hrun⟩ := ih hm report
      refine ⟨r, t, (runs_bind _ _ _ _ _).mpr ⟨_, fs, runs_request.mpr hstat, ?_⟩⟩
      split_ifs <;> exact hrun
    | some b =>
      obtain ⟨n, hn⟩ := hm name b hget
      have hstat : Quiet dirs fs (.statStaging name) (.ok (some n)) fs := by
        refine ⟨rfl, ?_⟩
        rw [hget]
        exact ⟨n, hn, rfl⟩
      have hremove : Runs Nominal (removeFile (.source name)) fs (.ok ())
          (fs.del (.source name)) := by
        refine runs_request.mpr ?_
        simp [Nominal, hget]
      have hrest : StagedMeasurable (fs.del (.source name)) := by
        intro other b' hb'
        rw [FileMap.get_del] at hb'
        split_ifs at hb'
        exact hm other b' hb'
      obtain ⟨r, t, hrun⟩ := ih hrest
        ⟨saturatingAdd32 report.removedFiles 1, saturatingAdd64 report.removedBytes n⟩
      exact ⟨r, t, (runs_bind _ _ _ _ _).mpr ⟨_, fs, runs_request.mpr hstat,
        (runs_bind _ _ _ _ _).mpr ⟨_, _, runs_onQueueDir.mpr hremove, hrun⟩⟩⟩

theorem exists_runs_purgeCaptureStagingOrDisable (hm : StagedMeasurable fs) :
    ∃ r t, Runs (Quiet dirs) purgeCaptureStagingOrDisable fs r t := by
  obtain ⟨l, hl⟩ := fs.exists_lists fun p => p.isStaged
  have hnames : ∀ name, name ∈ l.map Path.fileName ++ dirs.toList ↔
      (fs.get (.source name)).isSome ∨ name ∈ dirs := by
    intro name
    rw [List.mem_append, Finset.mem_toList, List.mem_map]
    refine or_congr_left ⟨?_, fun hs => ⟨.source name, hl.mem.mpr ⟨rfl, hs⟩, rfl⟩⟩
    rintro ⟨p, hp, rfl⟩
    obtain ⟨hstaged, hs⟩ := hl.mem.mp hp
    cases p with
    | source other => exact hs
    | directory d => cases hstaged
    | queue d c x => cases hstaged
  obtain ⟨r, t, hrun⟩ := @exists_runs_purgeLoop dirs fs hm ⟨0, 0⟩ (l.map Path.fileName ++ dirs.toList)
  have hpurge : Runs (Quiet dirs) purge fs r t :=
    (runs_bind _ _ _ _ _).mpr ⟨.ok (), fs, runs_request.mpr ⟨rfl, rfl⟩,
      (runs_bind _ _ _ _ _).mpr ⟨_, fs, runs_request.mpr ⟨rfl, _, hnames, rfl⟩, hrun⟩⟩
  cases r with
  | ok report => exact ⟨_, t, (runs_bind _ _ _ _ _).mpr ⟨_, t, hpurge, rfl, rfl⟩⟩
  | error err => exact ⟨_, t, (runs_bind _ _ _ _ _).mpr ⟨_, t, hpurge, rfl, rfl⟩⟩

end Ends

section Boot

variable {lib : StationLibrary} {cfg : RuntimeConfig} {registry : RedactionRegistry}
  {station : Config} {identity : StationIdentity} {d : Daemon} {dirs : Finset String}
  {opts : SaveOptions} {disk : Disk} {base : String} {r : Except ServeFailure Ready} {t : Disk × Fs}

/-- What the tasks are started with, and the files they are started on. -/
structure Started (lib : StationLibrary) (station : Config) (registry : RedactionRegistry)
    (opts : SaveOptions) (d : Daemon) (ready : Ready) (t : Fs) : Prop where
  credentials : CredentialsOf lib registry opts ready.toCredentials
  booted : ∃ d', DaemonStep station ready.identity d (.booted ready.recovered) d' ∧
    SameQueue d'.station.fs t
  pending : ready.pendingAtStart.toNat = min (sidecarsIn t .pending).card (2 ^ 32 - 1)
  staging : EmptyStaging t
  purged : ready.purge.isSome

/-- The ways a boot goes. -/
inductive BootCourse (lib : StationLibrary) (cfg : RuntimeConfig) (registry : RedactionRegistry)
    (station : Config) (disk : Disk) (d : Daemon) : Except ServeFailure Ready → Fs → Prop
  | config {cause : ServeCause} : (∀ base, ¬ cfg.Targets lib.urls base) →
      BootCourse lib cfg registry station disk d (.error (.config cause)) d.station.fs
  | notEnrolled {base : String} {cause : ServeCause} : cfg.Targets lib.urls base →
      disk.get .credentials = none →
      BootCourse lib cfg registry station disk d (.error (.unrecoverable cause)) d.station.fs
  | refused {base : String} {opts : SaveOptions} {cause : ServeCause} : cfg.Targets lib.urls base →
      disk.get .credentials = some (staged opts) → ¬ Connects lib opts base →
      BootCourse lib cfg registry station disk d (.error (.io cause)) d.station.fs
  | ready {base : String} {opts : SaveOptions} {ready : Ready} {t : Fs} :
      cfg.Targets lib.urls base → disk.get .credentials = some (staged opts) →
      Connects lib opts base → Started lib station registry opts d ready t →
      BootCourse lib cfg registry station disk d (.ok ready) t

/-- With credentials to read, a boot is ready unless a library refuses. -/
theorem runs_boot_saved (hi : d.Inv) (hsaved : SavedBy lib.toEnrollLibrary opts)
    (hs : disk.get .credentials = some (staged opts)) (hcfg : cfg.Targets lib.urls base)
    (h : Runs (paired Steady (Quiet dirs)) (boot lib cfg registry) (disk, d.station.fs) r t) :
    t.1 = disk ∧ BootCourse lib cfg registry station disk d r t.2 := by
  unfold boot at h
  rw [hcfg.1, hcfg.2] at h
  dsimp only at h
  rw [runs_bind] at h
  obtain ⟨made, u, hload, h⟩ := h
  obtain ⟨hload, hqueue⟩ := runs_paired_left.mp hload
  obtain ⟨hdisk, ⟨hconn, creds, rfl, hcreds⟩ | ⟨hconn, err, rfl⟩⟩ :=
    runs_loadCredentials_saved hsaved hs hload
  swap
  · obtain ⟨rfl, rfl⟩ := h
    rw [hqueue]
    exact ⟨hdisk, .refused hcfg hs hconn⟩
  dsimp only at h
  rw [runs_bind] at h
  obtain ⟨prepared, w, hprep, h⟩ := h
  obtain ⟨hfst, hprep⟩ := runs_paired_right.mp hprep
  rw [hqueue] at hprep
  obtain ⟨recovered, n, d', rfl, hboot, hfs, hn⟩ :=
    @runs_prepareQueue station creds.identity d _ hi _ (runs_onQueueDir.mp hprep)
  dsimp only at h
  rw [runs_bind] at h
  obtain ⟨report, w', hpurge, h⟩ := h
  obtain ⟨hfst', hpurge⟩ := runs_paired_right.mp hpurge
  obtain ⟨hsome, hempty, hsame⟩ := runs_purgeCaptureStagingOrDisable hpurge
  obtain ⟨rfl, rfl⟩ := h
  refine ⟨hfst'.trans (hfst.trans hdisk),
    .ready hcfg hs hconn ⟨hcreds, ⟨d', hboot, ?_⟩, ?_, hempty, hsome⟩⟩
  · rw [hfs]
    exact hsame
  · rw [hsame.sidecarsIn_eq]
    exact hn

/-- A boot comes to an end. -/
theorem exists_runs_boot (hi : d.Inv) (hm : StagedMeasurable d.station.fs) :
    ∃ r t, Runs (paired Steady (Quiet dirs)) (boot lib cfg registry) (disk, d.station.fs) r t := by
  unfold boot
  split
  · exact ⟨_, _, rfl, rfl⟩
  split
  · exact ⟨_, _, rfl, rfl⟩
  rename_i base hbase
  obtain ⟨made, u, hload⟩ := @exists_runs_loadCredentials lib registry base disk
  have hload' : Runs (paired Steady (Quiet dirs)) (useLeft (loadCredentials lib registry base))
      (disk, d.station.fs) made (u, d.station.fs) := runs_paired_left.mpr ⟨hload, rfl⟩
  cases made with
  | error err => exact ⟨_, _, (runs_bind _ _ _ _ _).mpr ⟨_, _, hload', rfl, rfl⟩⟩
  | ok creds =>
    obtain ⟨prepared, fs, hprep, hout⟩ :=
      exists_runs_prepareQueue hi.station.legible hi.station.named
    have hstaged : StagedMeasurable fs := fun name b hb =>
      hm name b ((hout _ fun _ _ _ h => by cases h).symm.trans hb)
    obtain ⟨report, t, hpurge⟩ := @exists_runs_purgeCaptureStagingOrDisable dirs fs hstaged
    have hprep' : Runs (paired Steady (Quiet dirs)) (useRight (onQueueDir prepareQueue))
        (u, d.station.fs) (.ok prepared) (u, fs) :=
      runs_paired_right.mpr ⟨rfl, runs_onQueueDir.mpr hprep⟩
    have hpurge' : Runs (paired Steady (Quiet dirs)) (useRight purgeCaptureStagingOrDisable)
        (u, fs) report (u, t) := runs_paired_right.mpr ⟨rfl, hpurge⟩
    exact ⟨_, _, (runs_bind _ _ _ _ _).mpr ⟨_, _, hload', (runs_bind _ _ _ _ _).mpr
      ⟨_, _, hprep', (runs_bind _ _ _ _ _).mpr ⟨_, _, hpurge', rfl, rfl⟩⟩⟩⟩

section Failures

variable {fs : Fs}

theorem runs_boot_incomplete (hcfg : ∀ base, ¬ cfg.Targets lib.urls base)
    (h : Runs (paired Steady (Quiet dirs)) (boot lib cfg registry) (disk, fs) r t) :
    (∃ cause, r = .error (.config cause)) ∧ t = (disk, fs) := by
  unfold boot at h
  split at h
  · exact ⟨⟨_, h.1⟩, h.2⟩
  rename_i hready
  split at h
  · exact ⟨⟨_, h.1⟩, h.2⟩
  rename_i base hbase
  exact absurd ⟨hready, hbase⟩ (hcfg base)

theorem runs_boot_absent (hcfg : cfg.Targets lib.urls base) (hnone : disk.get .credentials = none)
    (h : Runs (paired Steady (Quiet dirs)) (boot lib cfg registry) (disk, fs) r t) :
    (∃ cause, r = .error (.unrecoverable cause)) ∧ t = (disk, fs) := by
  unfold boot at h
  rw [hcfg.1, hcfg.2] at h
  dsimp only at h
  rw [runs_bind] at h
  obtain ⟨made, u, hload, h⟩ := h
  obtain ⟨hload, hqueue⟩ := runs_paired_left.mp hload
  obtain ⟨rfl, hu⟩ := runs_loadCredentials_absent hnone hload
  exact ⟨⟨_, h.1⟩, h.2.trans (Prod.ext hu hqueue)⟩

end Failures

/-- A boot on a disk of `enroll` and a queue the station came to. -/
theorem bootCourse (hi : d.Inv) (hdisk : Enrolling lib.toEnrollLibrary disk)
    (h : Runs (paired Steady (Quiet dirs)) (boot lib cfg registry) (disk, d.station.fs) r t) :
    t.1 = disk ∧ BootCourse lib cfg registry station disk d r t.2 := by
  by_cases hcfg : ∃ base, cfg.Targets lib.urls base
  · obtain ⟨base, hcfg⟩ := hcfg
    rcases hdisk.credentials with hnone | ⟨opts, hsaved, hs⟩
    · obtain ⟨⟨cause, rfl⟩, rfl⟩ := runs_boot_absent hcfg hnone h
      exact ⟨rfl, .notEnrolled hcfg hnone⟩
    · exact runs_boot_saved hi hsaved hs hcfg h
  · obtain ⟨⟨cause, rfl⟩, rfl⟩ := runs_boot_incomplete (not_exists.mp hcfg) h
    exact ⟨rfl, .config (not_exists.mp hcfg)⟩

/-- The folder says which client is built. -/
theorem clientOf_congr {opts' : SaveOptions} (h : staged opts = staged opts') :
    clientOf opts = clientOf opts' := by
  obtain ⟨hcert, hkey, hca⟩ := readIn_staged opts
  rw [h] at hcert hkey hca
  obtain ⟨hcert', hkey', hca'⟩ := readIn_staged opts'
  unfold clientOf
  rw [Except.ok.inj (hcert.symm.trans hcert'), Except.ok.inj (hkey.symm.trans hkey'),
    Except.ok.inj (hca.symm.trans hca')]

theorem connects_congr {opts' : SaveOptions} (h : staged opts = staged opts') :
    Connects lib opts base ↔ Connects lib opts' base := by
  obtain ⟨hcert, hkey, hca⟩ := MtlsClient.mk.inj (clientOf_congr h)
  unfold Connects
  rw [hcert, hkey, hca]

/-- The exit codes tell the ways apart. -/
theorem BootCourse.exit {fs : Fs} (h : BootCourse lib cfg registry station disk d r fs) :
    (exitWith r = 70 ↔ ∀ base, ¬ cfg.Targets lib.urls base) ∧
      (exitWith r = 76 ↔ (∃ base, cfg.Targets lib.urls base) ∧ disk.get .credentials = none) ∧
      (exitWith r = 74 ↔ ∃ base opts, cfg.Targets lib.urls base ∧
        disk.get .credentials = some (staged opts) ∧ ¬ Connects lib opts base) ∧
      (exitWith r = 0 ↔ ∃ base opts, cfg.Targets lib.urls base ∧
        disk.get .credentials = some (staged opts) ∧ Connects lib opts base) := by
  have hunsaved : ∀ {Q : String → SaveOptions → Prop}, disk.get .credentials = none →
      ¬ ∃ base opts, cfg.Targets lib.urls base ∧ disk.get .credentials = some (staged opts) ∧
        Q base opts := by
    rintro Q hnone ⟨base, opts, -, hs, -⟩
    rw [hnone] at hs
    cases hs
  -- what the libraries say of the save is the same for every way to write it
  have hsame : ∀ {base opts base' opts'}, cfg.Targets lib.urls base →
      disk.get .credentials = some (staged opts) → cfg.Targets lib.urls base' →
      disk.get .credentials = some (staged opts') →
      (Connects lib opts base ↔ Connects lib opts' base') := by
    intro base opts base' opts' hcfg hs hcfg' hs'
    obtain rfl := Except.ok.inj (hcfg.2.symm.trans hcfg'.2)
    exact connects_congr (Option.some.inj (hs.symm.trans hs'))
  -- one exit code a way; the other three conditions fail there
  cases h with
  | config hnone =>
    show ((70 : ℤ) = 70 ↔ _) ∧ ((70 : ℤ) = 76 ↔ _) ∧ ((70 : ℤ) = 74 ↔ _) ∧ ((70 : ℤ) = 0 ↔ _)
    refine ⟨iff_of_true rfl hnone, iff_of_false (by decide) ?_, iff_of_false (by decide) ?_,
      iff_of_false (by decide) ?_⟩
    · rintro ⟨⟨base, hcfg⟩, -⟩
      exact hnone base hcfg
    · rintro ⟨base, opts, hcfg, -⟩
      exact hnone base hcfg
    · rintro ⟨base, opts, hcfg, -⟩
      exact hnone base hcfg
  | notEnrolled hcfg hnone =>
    show ((76 : ℤ) = 70 ↔ _) ∧ ((76 : ℤ) = 76 ↔ _) ∧ ((76 : ℤ) = 74 ↔ _) ∧ ((76 : ℤ) = 0 ↔ _)
    exact ⟨iff_of_false (by decide) fun h => h _ hcfg, iff_of_true rfl ⟨⟨_, hcfg⟩, hnone⟩,
      iff_of_false (by decide) (hunsaved hnone), iff_of_false (by decide) (hunsaved hnone)⟩
  | refused hcfg hs hconn =>
    show ((74 : ℤ) = 70 ↔ _) ∧ ((74 : ℤ) = 76 ↔ _) ∧ ((74 : ℤ) = 74 ↔ _) ∧ ((74 : ℤ) = 0 ↔ _)
    refine ⟨iff_of_false (by decide) fun h => h _ hcfg, iff_of_false (by decide) ?_,
      iff_of_true rfl ⟨_, _, hcfg, hs, hconn⟩, iff_of_false (by decide) ?_⟩
    · rintro ⟨-, hnone⟩
      rw [hnone] at hs
      cases hs
    · rintro ⟨base, opts, hcfg', hs', hconn'⟩
      exact hconn ((hsame hcfg hs hcfg' hs').mpr hconn')
  | ready hcfg hs hconn _ =>
    show ((0 : ℤ) = 70 ↔ _) ∧ ((0 : ℤ) = 76 ↔ _) ∧ ((0 : ℤ) = 74 ↔ _) ∧ ((0 : ℤ) = 0 ↔ _)
    refine ⟨iff_of_false (by decide) fun h => h _ hcfg, iff_of_false (by decide) ?_,
      iff_of_false (by decide) ?_,
      iff_of_true rfl ⟨_, _, hcfg, hs, hconn⟩⟩
    · rintro ⟨-, hnone⟩
      rw [hnone] at hs
      cases hs
    · rintro ⟨base, opts, hcfg', hs', hnot⟩
      exact hnot ((hsame hcfg hs hcfg' hs').mp hconn)

theorem At.of_sameQueue {fs t : Fs} {c : ClipId} {p : Phase c} (h : At fs c p) (hq : SameQueue fs t) :
    At t c p :=
  h.of_sameClip fun _ _ _ => hq _ rfl

/-- The clips and the recovered upload at `service.ready`. -/
theorem Started.resumes {ready : Ready} {fs : Fs} (hi : d.Inv)
    (h : Started lib station registry opts d ready fs) :
    ready.recovered = (d.station.awaiting.map requeued).toList ∧
      ∀ c (p : Phase c), At d.station.fs c p → At fs c p.resumed := by
  obtain ⟨d', hboot, hsame⟩ := h.booted
  exact ⟨hboot.recovered_eq hi, fun c p hp => At.of_sameQueue (hboot.resumed hi hp) hsame⟩

theorem inv_of_exec {d₀ : Daemon} {tr : List (DaemonEvent × Daemon)} (h₀ : d₀.Initial)
    (h : Exec (fun d ev d' => ∃ prior, DaemonStep station prior d ev d') d₀ tr d) : d.Inv := by
  refine h.invariant h₀.inv fun a ev b ha hstep => ?_
  obtain ⟨prior, hstep⟩ := hstep
  exact ha.step hstep

/-- `serve` started on a disk that only `enroll` has worked on, and on a queue that the station has come
to between two operations or while it awaits an upload, comes to an end.  The exit code is 70 if the
configuration is not complete, 76 if there are no credentials, and 74 if a library refuses them; the
credentials are only read, and a boot that fails leaves the queue alone.  One that succeeds holds the
identity and the client of the save, hides the lines of its key in every log line, has put back the
upload that was cut short and no other clip, has counted what waits and emptied the staging
directory. -/
theorem boot_outcomes {d₀ : Daemon} {tr : List (DaemonEvent × Daemon)}
    (hdisk : Enrolling lib.toEnrollLibrary disk) (h₀ : d₀.Initial)
    (hd : Exec (fun d ev d' => ∃ prior, DaemonStep station prior d ev d') d₀ tr d) :
    (StagedMeasurable d.station.fs →
      ∃ r t, Runs (paired Steady (Quiet dirs)) (boot lib cfg registry) (disk, d.station.fs) r t) ∧
    ∀ r t, Runs (paired Steady (Quiet dirs)) (boot lib cfg registry) (disk, d.station.fs) r t →
      t.1 = disk ∧
      (exitWith r = 70 ↔ ∀ base, ¬ cfg.Targets lib.urls base) ∧
      (exitWith r = 76 ↔ (∃ base, cfg.Targets lib.urls base) ∧ disk.get .credentials = none) ∧
      (exitWith r = 74 ↔ ∃ base opts, cfg.Targets lib.urls base ∧
        disk.get .credentials = some (staged opts) ∧ ¬ Connects lib opts base) ∧
      (exitWith r = 0 ↔ ∃ base opts, cfg.Targets lib.urls base ∧
        disk.get .credentials = some (staged opts) ∧ Connects lib opts base) ∧
      (∀ err, r = .error err → t.2 = d.station.fs) ∧
      ∀ ready, r = .ok ready → ∃ opts, disk.get .credentials = some (staged opts) ∧
        Started lib station registry opts d ready t.2 ∧
        Hides ready.registry (lib.textOf opts.stationKeyPem) ∧
        ready.recovered = (d.station.awaiting.map requeued).toList ∧
        ∀ c (p : Phase c), At d.station.fs c p → At t.2 c p.resumed := by
  have hi : d.Inv := inv_of_exec h₀ hd
  refine ⟨exists_runs_boot hi, fun r t h => ?_⟩
  obtain ⟨hsame, hcourse⟩ := @bootCourse lib cfg registry station d dirs disk r t hi hdisk h
  obtain ⟨h70, h76, h74, h0⟩ := hcourse.exit
  refine ⟨hsame, h70, h76, h74, h0, ?_, ?_⟩
  · rintro err rfl
    generalize t.2 = fs at hcourse
    cases hcourse <;> rfl
  · rintro ready rfl
    generalize t.2 = fs at hcourse
    cases hcourse with
    | @ready base opts _ _ hcfg hs hconn hstarted =>
      have hhides := hides_registerStationKeySecrets registry (lib.textOf opts.stationKeyPem)
      rw [← hstarted.credentials.registry] at hhides
      exact ⟨opts, hs, hstarted, hhides, hstarted.resumes hi⟩

/-! ## `serve` after `enroll` -/

/-- The identity a save returns is the one the new credentials load as. -/
theorem loaded_of_save {pki : Pki} {s u : Disk} {enrolled : StationIdentity}
    (h : Runs Steady (save pki opts) s (.ok enrolled) u) :
    loaded pki (u.get .credentials) = .ok enrolled := by
  obtain ⟨existed, v, -, hsettle⟩ := h.bind_ok fun _ => ⟨_, rfl⟩
  obtain ⟨⟨⟩, w, -, hrest⟩ := hsettle.bind_ok fun _ => ⟨_, rfl⟩
  obtain ⟨⟨⟩, x, -, hload⟩ := (runs_bind _ _ _ _ _).mp hrest
  obtain ⟨hid, rfl⟩ := runs_load.mp hload
  exact hid.symm

theorem stationId_of_loaded {pki : Pki} {identity : StationIdentity}
    (h : loaded pki (some (staged opts)) = .ok identity) : identity.stationId = opts.stationId := by
  have hfile : asText (readIn (some (staged opts)) identityFile) =
      .ok (.identity ⟨opts.stationId, opts.enrolledAt, opts.perchpubUrl⟩) := by
    simp [readIn, get_staged, asText]
  unfold loaded at h
  rw [hfile] at h
  simp only [decodeIdentity] at h
  split at h
  · cases h
  split at h
  · cases h
  · obtain rfl := Except.ok.inj h
    rfl

/-- The identity `enroll` ends with is the one its credentials load as. -/
theorem loaded_of_run {inp : EnrollInputs lib.toEnrollLibrary} {enrolled : StationIdentity}
    {u : Disk × History EdgeReq (EdgeRep lib.Detail)}
    (h : Runs (beside Steady) (Command.run lib.toEnrollLibrary inp) (disk, []) (.ok enrolled) u) :
    loaded lib.pki (u.1.get .credentials) = .ok enrolled := by
  rcases Command.runs_run h with ⟨-, _, heq, -⟩ | ⟨_, _, _, _, -, hrun⟩
  · cases heq
  rcases Command.runs_confirmAndPersist.mp hrun with ⟨_, -, -, heq⟩ | ⟨confirmed, -, hpersist⟩
  · cases heq
  · exact loaded_of_save (Command.runs_save_of_persist hpersist)

/-- After an `enroll` that succeeded, on whatever disk, a complete `serve` without faults, on a queue the
station has come to between two operations or while it awaits an upload, fails only if a library refuses
the new credentials.  Otherwise it is ready with the identity `enroll` ended with, and its client
presents the certificate of the answer accepted last, with its chain and the key of the request. -/
theorem enrolled_station_serves {inp : EnrollInputs lib.toEnrollLibrary} {enrolled : StationIdentity}
    {u : Disk × History EdgeReq (EdgeRep lib.Detail)} {d₀ : Daemon} {tr : List (DaemonEvent × Daemon)}
    (henroll : Runs (beside Steady) (Command.run lib.toEnrollLibrary inp) (disk, []) (.ok enrolled) u)
    (h₀ : d₀.Initial)
    (hd : Exec (fun d ev d' => ∃ prior, DaemonStep station prior d ev d') d₀ tr d)
    (hcfg : cfg.Targets lib.urls base)
    (h : Runs (paired Steady (Quiet dirs)) (boot lib cfg registry) (u.1, d.station.fs) r t) :
    ∃ perchpubUrl material csr before v confirmed,
      u.2 = before ++ [⟨Command.enrollPost lib.toEnrollLibrary perchpubUrl material csr, v⟩] ∧
      Command.Accepted inp material csr confirmed v ∧
      ((exitWith r = 74 ∧ ¬ ((∃ url, lib.urls.parse (PerchpubClient.trimEndSlashes base) = .ok url) ∧
          lib.tls (.text confirmed.certificatePem) (.text (lib.rcgen.serializePem csr.keypair))
            (some (.text confirmed.caChainPem)) = .ok ())) ∨
        ∃ ready, r = .ok ready ∧ ready.identity = enrolled ∧
          ready.identity.stationId = confirmed.stationId ∧
          ready.inner = ⟨.text confirmed.certificatePem, .text (lib.rcgen.serializePem csr.keypair),
            some (.text confirmed.caChainPem)⟩) := by
  obtain ⟨perchpubUrl, material, csr, overwrite, before, v, confirmed, -, hlast, hv, hs⟩ :=
    Command.saved_of_run henroll
  refine ⟨perchpubUrl, material, csr, before, v, confirmed, hlast, hv, ?_⟩
  have hid : loaded lib.pki (u.1.get .credentials) = .ok enrolled := loaded_of_run henroll
  have hsaved : SavedBy lib.toEnrollLibrary _ := savedBy_of_accepted hv overwrite
  obtain ⟨-, hcourse⟩ := @runs_boot_saved lib cfg registry station d dirs _ _ base r t
    (inv_of_exec h₀ hd) hsaved hs hcfg h
  generalize t.2 = fs at hcourse
  cases hcourse with
  | config hnone => exact absurd hcfg (hnone base)
  | notEnrolled _ hnone =>
    rw [hnone] at hs
    cases hs
  | refused hcfg' hs' hconn =>
    obtain rfl := Except.ok.inj (hcfg.2.symm.trans hcfg'.2)
    refine Or.inl ⟨rfl, fun hok => hconn ?_⟩
    rw [← connects_congr (Option.some.inj (hs.symm.trans hs'))]
    exact ⟨hok.2, hok.1⟩
  | @ready _ _ ready _ _ hs' _ hstarted =>
    have hfolder := Option.some.inj (hs.symm.trans hs')
    have hsame := hstarted.credentials.identity
    rw [← hfolder] at hsame
    rw [hs] at hid
    refine Or.inr ⟨ready, rfl, Except.ok.inj (hsame.symm.trans hid), stationId_of_loaded hsame, ?_⟩
    rw [hstarted.credentials.inner, ← clientOf_congr hfolder]
    rfl

/-! ## A first boot -/

/-- URLs and TLS material are always taken. -/
def numberedStation : StationLibrary :=
  { Command.numberedLibrary with
    urls := ⟨fun s => .ok ⟨s, "perchpub"⟩, fun url _ => some url⟩
    tls := anyTls
    identityText := fun _ => [] }

def firstConfig : RuntimeConfig := ⟨Command.firstInputs.config, none⟩

theorem targets_first : firstConfig.Targets numberedStation.urls
    (PerchpubClient.trimEndSlashes "https://perchpub") := by
  have hready : firstConfig.toOperatorConfig.ensureRuntimeReady = .ok () := by decide
  exact ⟨hready, rfl⟩

/-- No process has been started. -/
def idleDaemon : Daemon := ⟨Station.blank, .over, false⟩

theorem idleDaemon_initial : idleDaemon.Initial := ⟨Station.blank_initial, rfl⟩

theorem idleDaemon_staged : StagedMeasurable idleDaemon.station.fs := by
  intro name b hb
  have hempty : idleDaemon.station.fs.get (.source name) = none := FileMap.get_empty _
  rw [hempty] at hb
  cases hb

/-- After a first enrollment `serve` comes up. -/
theorem boot_outcomes_first : ∃ disk r t, disk.get .credentials ≠ none ∧
    Runs (paired Steady (Quiet ∅)) (boot numberedStation firstConfig .new)
      (disk, idleDaemon.station.fs) r t ∧ exitWith r = 0 := by
  obtain ⟨enrolled, u, henroll, -⟩ := Command.runs_first
  obtain ⟨_, _, _, overwrite, _, _, _, -, -, -, hs⟩ := Command.saved_of_run henroll
  have hdisk : Enrolling numberedStation.toEnrollLibrary u.1 := .enroll .blank henroll.reaches
  have hnothing : Exec (fun d ev d' => ∃ prior, DaemonStep Config.plain prior d ev d') idleDaemon []
      idleDaemon := .nil
  obtain ⟨hends, hall⟩ := @boot_outcomes numberedStation firstConfig .new Config.plain idleDaemon ∅
    u.1 idleDaemon [] hdisk idleDaemon_initial hnothing
  obtain ⟨r, t, hrun⟩ := hends idleDaemon_staged
  obtain ⟨-, -, -, -, h0, -⟩ := hall r t hrun
  refine ⟨u.1, r, t, ?_, hrun, h0.mpr ⟨_, _, targets_first, hs, rfl, _, rfl⟩⟩
  rw [hs]
  exact Option.some_ne_none _

/-- It comes up with the identity of that enrollment. -/
theorem enrolled_station_serves_first : ∃ disk enrolled t ready,
    Runs (paired Steady (Quiet ∅)) (boot numberedStation firstConfig .new)
      (disk, idleDaemon.station.fs) (.ok ready) t ∧ ready.identity = enrolled := by
  obtain ⟨enrolled, u, henroll, -⟩ := Command.runs_first
  have hnothing : Exec (fun d ev d' => ∃ prior, DaemonStep Config.plain prior d ev d') idleDaemon []
      idleDaemon := .nil
  obtain ⟨r, t, hrun⟩ := @exists_runs_boot numberedStation firstConfig .new idleDaemon ∅ u.1
    idleDaemon_initial.inv idleDaemon_staged
  obtain ⟨_, _, _, _, _, _, -, -, ⟨-, hrefused⟩ | ⟨ready, rfl, hid, -⟩⟩ :=
    @enrolled_station_serves numberedStation firstConfig .new Config.plain idleDaemon ∅ .empty _ r t
      _ enrolled u idleDaemon [] henroll idleDaemon_initial hnothing targets_first hrun
  · exact absurd ⟨⟨_, rfl⟩, rfl⟩ hrefused
  · exact ⟨u.1, enrolled, t, ready, hrun, hid⟩

end Boot

end Serve

end Perchstation
