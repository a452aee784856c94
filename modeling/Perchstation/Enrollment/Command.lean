import Perchstation.Config
import Perchstation.Enrollment.Csr
import Perchstation.Enrollment.Exchange
import Perchstation.Enrollment.Freshness
import Perchstation.Enrollment.Session
import Perchstation.Identity.Enroll
import Perchstation.Lib.Beside

/-!
# Command — the `enroll` command with its exchange (`commands/enroll.rs`)

The command works on the disk and talks to the enrollment edge.  It reads the disk before the exchange
and writes it after one that was accepted.  A `CommandError` keeps what its message is made of; the
frame source is a parameter, and the log events are left out.
-/

namespace Perchstation

open Interleaving Resumption

inductive QrSourceArg
  | camera
  | file
  deriving DecidableEq

/-- `EnrollArgs`. -/
structure EnrollArgs where
  qrSource : QrSourceArg
  qrFile : Option String
  force : Bool

inductive QrFrameError
  | unavailable (message : String)
  | decode (message : String)
  | io (source : IoError)

/-- `FileQrSource` of a path, and `CameraQrSource` of a binary. -/
inductive QrFrameSource
  | file (path : String)
  | camera (binary : String)

/-- The libraries under the command. -/
structure EnrollLibrary extends EdgeLibrary where
  x : X509
  rcgen : Rcgen x
  /-- The `not_after` in a certificate file that is not text. -/
  notAfter : CredBlob → Except CertFault ℤ
  Frame : Type
  qr : QrLibrary Frame

/-- The parsers of `identity.rs`. -/
def EnrollLibrary.pki (lib : EnrollLibrary) : Pki :=
  Pki.over { KeyPair := lib.x.KeyPair, Spki := lib.x.PublicKey, spki := lib.x.publicKeyDer,
             notAfter := lib.notAfter, fromPem := lib.rcgen.fromPem,
             serializePem := lib.rcgen.serializePem } lib.x

/-- One run of the command, with what its devices and its clock answer. -/
structure EnrollInputs (lib : EnrollLibrary) where
  args : EnrollArgs
  config : OperatorConfig
  /-- `camera_still_command` of `CaptureHwConfig::from_table`. -/
  stillCommand : Except String String
  nextFrame : QrFrameSource → Except QrFrameError lib.Frame
  /-- `KeyPair::generate_for`. -/
  generated : Except String lib.x.KeyPair
  registry : RedactionRegistry
  decodedAt : DateTime
  sentAt : DateTime
  enrolledAt : DateTime

/-- What the message of a failed command is made of. -/
inductive EnrollCause (Detail : Type)
  | config (err : ConfigError)
  | perchpubUrl
  | qrFile
  | hardware (message : String)
  | qrFrame (err : QrFrameError)
  | qrDecode (err : QrDecodeError)
  | csr (err : CsrError)
  | keyLoad (err : IdentityError)
  | confirm (err : SendError Detail)
  | persist (err : IdentityError)

inductive CommandError (κ : Type)
  | config (cause : κ)
  | io (cause : κ)
  | transient (cause : κ)
  | unrecoverable (cause : κ)

namespace CommandError

def exitCode {κ : Type} : CommandError κ → ℤ
  | .config _ => 70
  | .io _ => 74
  | .transient _ => 75
  | .unrecoverable _ => 76

end CommandError

/-- The exit code of the process for the result of a command. -/
def exitWith {κ α : Type} : Except (CommandError κ) α → ℤ
  | .ok _ => 0
  | .error err => err.exitCode

namespace Command

section Definitions

variable (lib : EnrollLibrary) (inp : EnrollInputs lib)

abbrev Failure : Type := CommandError (EnrollCause lib.Detail)

abbrev EnrollAct (α : Type) : Type :=
  Prog (CredReq ⊕ EdgeReq) (Both CredRep (EdgeRep lib.Detail)) α

/-- `build_qr_source`. -/
def buildQrSource : Except (Failure lib) QrFrameSource :=
  match inp.args.qrSource with
  | .file =>
    match inp.args.qrFile with
    | none => .error (.config .qrFile)
    | some path => .ok (.file path)
  | .camera =>
    match inp.stillCommand with
    | .error message => .error (.config (.hardware message))
    | .ok binary => .ok (.camera binary)

/-- Acquire a QR frame and decode it. -/
def acquire : Except (Failure lib) EnrollmentSessionMaterial :=
  match buildQrSource lib inp with
  | .error err => .error err
  | .ok source =>
    match inp.nextFrame source with
    | .error err => .error (.io (.qrFrame err))
    | .ok frame =>
      match (decodeEnrollmentSession lib.qr inp.registry frame inp.decodedAt).1 with
      | .error err => .error (.io (.qrDecode err))
      | .ok material => .ok material

/-- `build_fresh_csr`. -/
def buildFreshCsr : Except (Failure lib) (EnrollmentCsr lib.x) :=
  match Csr.generate lib.rcgen inp.generated with
  | .error err => .error (.io (.csr err))
  | .ok csr => .ok csr

/-- The CSR, and whether it is over the persisted key. -/
def obtainCsr : CredAct (Except (Failure lib) (EnrollmentCsr lib.x × Bool)) :=
  if inp.args.force then return (buildFreshCsr lib inp).map fun csr => (csr, false)
  else do
    match ← Identity.loadKeypair lib.pki with
    | .ok existingKey =>
      match Csr.buildFromKeypair lib.rcgen existingKey with
      | .error err => return .error (.io (.csr err))
      | .ok built => return .ok (built, true)
    | .error (.io _ .notFound) => return (buildFreshCsr lib inp).map fun csr => (csr, false)
    | .error err => return .error (.io (.keyLoad err))

def mapConfirmError (err : SendError lib.Detail) : Failure lib :=
  match err with
  | .sessionInvalid _ _ => .unrecoverable (.confirm err)
  | .invalid (.refused _) => .unrecoverable (.confirm err)
  | .serverRejected _ _ => .unrecoverable (.confirm err)
  | .transientExhausted _ _ _ => .transient (.confirm err)
  | _ => .io (.confirm err)

/-- What is saved. -/
def saveOptions (confirmed : Confirm.ConfirmedEnrollment) (csr : EnrollmentCsr lib.x)
    (overwrite : Bool) : Identity.SaveOptions where
  stationId := confirmed.stationId
  enrolledAt := inp.enrolledAt
  perchpubUrl := inp.config.perchpubUrl.getD ""
  stationKeyPem := .text (lib.rcgen.serializePem csr.keypair)
  stationCertPem := .text confirmed.certificatePem
  caChainPem := .text confirmed.caChainPem
  overwrite := overwrite

def persistIdentity (confirmed : Confirm.ConfirmedEnrollment) (csr : EnrollmentCsr lib.x)
    (overwrite : Bool) : CredAct (Except (Failure lib) StationIdentity) := do
  match ← Identity.save lib.pki (saveOptions lib inp confirmed csr overwrite) with
  | .ok identity => return .ok identity
  | .error (.alreadyExists path existing) =>
    return .error (.unrecoverable (.persist (.alreadyExists path existing)))
  | .error err => return .error (.io (.persist err))

/-- `confirm::send` for the material and the CSR. -/
def exchange (perchpubUrl : String) (material : EnrollmentSessionMaterial) (csr : EnrollmentCsr lib.x) :
    EdgeAct lib.Detail (Except (SendError lib.Detail) Confirm.ConfirmedEnrollment) :=
  Confirm.send lib.toEdgeLibrary lib.x perchpubUrl (String.ofList material.caChainPem)
    material.sessionId (String.ofList material.authToken) csr.csrPem csr.keypair inp.sentAt

/-- The command from the exchange on. -/
def confirmAndPersist (perchpubUrl : String) (material : EnrollmentSessionMaterial)
    (csr : EnrollmentCsr lib.x) (overwrite : Bool) :
    EnrollAct lib (Except (Failure lib) StationIdentity) := do
  match ← useRight (exchange lib inp perchpubUrl material csr) with
  | .error err => return .error (mapConfirmError lib err)
  | .ok confirmed => useLeft (persistIdentity lib inp confirmed csr overwrite)

/-- `run`. -/
def run : EnrollAct lib (Except (Failure lib) StationIdentity) :=
  match inp.config.ensureRuntimeReady with
  | .error err => return .error (.config (.config err))
  | .ok () =>
    match inp.config.perchpubUrl.filter fun url => !url.isEmpty with
    | none => return .error (.config .perchpubUrl)
    | some perchpubUrl => do
      let previous ← useLeft Identity.previousStationId
      match acquire lib inp with
      | .error err => return .error err
      | .ok material => do
        match ← useLeft (obtainCsr lib inp) with
        | .error err => return .error err
        | .ok (csr, reusedKey) =>
          confirmAndPersist lib inp perchpubUrl material csr
            (reusedKey || inp.args.force || previous.isSome)

end Definitions

/-! ## Stops and runs -/

section Rules

variable {lib : EnrollLibrary} {inp : EnrollInputs lib}
  {s t : Disk × History EdgeReq (EdgeRep lib.Detail)}
  {disk : Disk} {perchpubUrl : String} {material : EnrollmentSessionMaterial}
  {csr : EnrollmentCsr lib.x} {overwrite : Bool}

instance (r : EdgeReq) : Nonempty (EdgeRep lib.Detail r) := by
  cases r with
  | post _ _ => exact ⟨.error ""⟩
  | sleep _ => exact ⟨()⟩

/-- What the command has got when it comes to the exchange. -/
structure Prepared (inp : EnrollInputs lib) (disk : Disk) (perchpubUrl : String)
    (material : EnrollmentSessionMaterial) (csr : EnrollmentCsr lib.x) (overwrite : Bool) : Prop where
  ready : inp.config.ensureRuntimeReady = .ok ()
  url : inp.config.perchpubUrl = some perchpubUrl
  acquired : acquire lib inp = .ok material
  obtained : ∃ reusedKey previous, Runs Steady (obtainCsr lib inp) disk (.ok (csr, reusedKey)) disk ∧
    Runs Steady Identity.previousStationId disk previous disk ∧
    overwrite = (reusedKey || inp.args.force || previous.isSome)

theorem within_obtainCsr : Within Identity.Reads (obtainCsr lib inp) := by
  have hload : Within Identity.Reads (Identity.loadKeypair lib.pki) := by
    refine (Identity.within_readToString fun _ => id).bind fun v => ?_
    split
    · exact within_pure _
    · split <;> exact within_pure _
  unfold obtainCsr
  split_ifs
  · exact within_pure _
  · refine hload.bind fun v => ?_
    split
    · split <;> exact within_pure _
    · exact within_pure _
    · exact within_pure _

section Look

variable {α β : Type} {p : CredAct α} {f : α → EnrollAct lib β}

/-- A program that only reads the disk, and what follows it. -/
theorem reaches_look (hp : Within Identity.Reads p) (h : Reaches (beside Steady) (useLeft p >>= f) s t) :
    t = s ∨ ∃ a, Runs Steady p s.1 a s.1 ∧ Reaches (beside Steady) (f a) s t := by
  rcases (reaches_bind _ _ _ _).mp h with hfirst | ⟨a, u, hfirst, hrest⟩
  · obtain ⟨hreach, hsnd⟩ := reaches_useLeft.mp hfirst
    exact Or.inl (Prod.ext (Identity.eq_of_reads hp hreach) hsnd)
  · obtain ⟨hrun, hsnd⟩ := runs_useLeft.mp hfirst
    obtain rfl : u = s := Prod.ext (Identity.eq_of_reads hp hrun.reaches) hsnd
    exact Or.inr ⟨a, hrun, hrest⟩

theorem runs_look {b : β} (hp : Within Identity.Reads p)
    (h : Runs (beside Steady) (useLeft p >>= f) s b t) :
    ∃ a, Runs Steady p s.1 a s.1 ∧ Runs (beside Steady) (f a) s b t := by
  obtain ⟨a, u, hfirst, hrest⟩ := (runs_bind _ _ _ _ _).mp h
  obtain ⟨hrun, hsnd⟩ := runs_useLeft.mp hfirst
  obtain rfl : u = s := Prod.ext (Identity.eq_of_reads hp hrun.reaches) hsnd
  exact ⟨a, hrun, hrest⟩

end Look

/-- The command leaves the disk as it is and posts nothing before the exchange. -/
theorem reaches_run (h : Reaches (beside Steady) (run lib inp) s t) : t = s ∨
    ∃ perchpubUrl material csr overwrite, Prepared inp s.1 perchpubUrl material csr overwrite ∧
      Reaches (beside Steady) (confirmAndPersist lib inp perchpubUrl material csr overwrite) s t := by
  unfold run at h
  split at h
  · exact Or.inl h
  rename_i hready
  split at h
  · exact Or.inl h
  rename_i perchpubUrl hurl
  rcases reaches_look Identity.within_previousStationId h with hsame | ⟨previous, hprevious, hacquire⟩
  · exact Or.inl hsame
  split at hacquire
  · exact Or.inl hacquire
  rename_i material hmaterial
  rcases reaches_look within_obtainCsr hacquire with hsame | ⟨r, hobtain, hrest⟩
  · exact Or.inl hsame
  split at hrest
  · exact Or.inl hrest
  rename_i csr reusedKey
  exact Or.inr ⟨perchpubUrl, material, csr, _,
    ⟨hready, (Option.filter_eq_some_iff.mp hurl).1, hmaterial, reusedKey, previous, hobtain, hprevious,
      rfl⟩, hrest⟩

/-- The failure is one of the configuration or of the station. -/
def Local (err : Failure lib) : Prop := err.exitCode = 70 ∨ err.exitCode = 74

theorem local_of_acquire {err : Failure lib} (h : acquire lib inp = .error err) : Local err := by
  unfold acquire at h
  split at h
  · rename_i hsource
    obtain rfl := Except.error.inj h
    unfold buildQrSource at hsource
    split at hsource
    · split at hsource
      · obtain rfl := Except.error.inj hsource
        exact Or.inl rfl
      · cases hsource
    · split at hsource
      · obtain rfl := Except.error.inj hsource
        exact Or.inl rfl
      · cases hsource
  split at h
  · obtain rfl := Except.error.inj h
    exact Or.inr rfl
  split at h
  · obtain rfl := Except.error.inj h
    exact Or.inr rfl
  · cases h

theorem local_of_buildFreshCsr {err : Failure lib} (h : buildFreshCsr lib inp = .error err) :
    Local err := by
  unfold buildFreshCsr at h
  split at h
  · obtain rfl := Except.error.inj h
    exact Or.inr rfl
  · cases h

theorem yields_obtainCsr : Yields (fun r => ∀ err, r = .error err → Local err) (obtainCsr lib inp) := by
  have hfresh : ∀ err, ((buildFreshCsr lib inp).map fun csr => (csr, false)) = .error err →
      Local err := by
    intro err h
    cases hcsr : buildFreshCsr lib inp with
    | error err' =>
      rw [hcsr] at h
      obtain rfl := Except.error.inj h
      exact local_of_buildFreshCsr hcsr
    | ok csr =>
      rw [hcsr] at h
      cases h
  unfold obtainCsr
  split_ifs
  · exact yields_pure hfresh
  · refine yields_bind fun v => ?_
    split
    · split
      · exact yields_pure fun err h => by
          obtain rfl := Except.error.inj h
          exact Or.inr rfl
      · exact yields_pure fun err h => by cases h
    · exact yields_pure hfresh
    · exact yields_pure fun err h => by
        obtain rfl := Except.error.inj h
        exact Or.inr rfl

theorem runs_run {r : Except (Failure lib) StationIdentity}
    (h : Runs (beside Steady) (run lib inp) s r t) :
    (t = s ∧ ∃ err, r = .error err ∧ Local err) ∨
      ∃ perchpubUrl material csr overwrite, Prepared inp s.1 perchpubUrl material csr overwrite ∧
        Runs (beside Steady) (confirmAndPersist lib inp perchpubUrl material csr overwrite) s r t := by
  unfold run at h
  split at h
  · obtain ⟨rfl, rfl⟩ := h
    exact Or.inl ⟨rfl, _, rfl, Or.inl rfl⟩
  rename_i hready
  split at h
  · obtain ⟨rfl, rfl⟩ := h
    exact Or.inl ⟨rfl, _, rfl, Or.inl rfl⟩
  rename_i perchpubUrl hurl
  obtain ⟨previous, hprevious, hacquire⟩ := runs_look Identity.within_previousStationId h
  split at hacquire
  · rename_i hfail
    obtain ⟨rfl, rfl⟩ := hacquire
    exact Or.inl ⟨rfl, _, rfl, local_of_acquire hfail⟩
  rename_i material hmaterial
  obtain ⟨csr, hobtain, hrest⟩ := runs_look within_obtainCsr hacquire
  split at hrest
  · obtain ⟨rfl, rfl⟩ := hrest
    exact Or.inl ⟨rfl, _, rfl, yields_obtainCsr.runs hobtain _ rfl⟩
  rename_i csr reusedKey
  exact Or.inr ⟨perchpubUrl, material, csr, _,
    ⟨hready, (Option.filter_eq_some_iff.mp hurl).1, hmaterial, reusedKey, previous, hobtain, hprevious,
      rfl⟩, hrest⟩

/-- A prepared command goes on with the exchange. -/
theorem Prepared.runs {r : Except (Failure lib) StationIdentity}
    (h : Prepared inp s.1 perchpubUrl material csr overwrite)
    (hrun : Runs (beside Steady) (confirmAndPersist lib inp perchpubUrl material csr overwrite) s r t) :
    Runs (beside Steady) (run lib inp) s r t := by
  obtain ⟨reusedKey, previous, hobtain, hprevious, rfl⟩ := h.obtained
  have hready := h.ready
  have hurl : inp.config.perchpubUrl.filter (fun url => !url.isEmpty) = some perchpubUrl := by
    rw [Option.filter_eq_some_iff]
    refine ⟨h.url, ?_⟩
    rw [OperatorConfig.ensureRuntimeReady, h.url] at hready
    split_ifs at hready with hempty
    simpa using hempty
  unfold run
  rw [h.ready]
  dsimp only
  rw [hurl]
  refine (runs_bind _ _ _ _ _).mpr ⟨previous, s, runs_useLeft.mpr ⟨hprevious, rfl⟩, ?_⟩
  rw [h.acquired]
  exact (runs_bind _ _ _ _ _).mpr ⟨_, s, runs_useLeft.mpr ⟨hobtain, rfl⟩, hrun⟩

/-- The exchange of a prepared command. -/
theorem reaches_confirmAndPersist
    (h : Reaches (beside Steady) (confirmAndPersist lib inp perchpubUrl material csr overwrite) (disk, [])
      t) :
    (t.1 = disk ∧ ∃ rest r, Follows (exchange lib inp perchpubUrl material csr) (t.2 ++ rest) r) ∨
      ∃ confirmed, Follows (exchange lib inp perchpubUrl material csr) t.2 (.ok confirmed) ∧
        Reaches Steady (Identity.save lib.pki (saveOptions lib inp confirmed csr overwrite)) disk
          t.1 := by
  rcases (reaches_bind _ _ _ _).mp h with hpost | ⟨r, u, hpost, hrest⟩
  · obtain ⟨hist, rfl, rest, r, hf⟩ := reaches_useRight hpost
    exact Or.inl ⟨rfl, rest, r, hf⟩
  obtain ⟨hist, hf, rfl⟩ := runs_useRight.mp hpost
  cases r with
  | error err =>
    obtain rfl := reaches_pure.mp hrest
    refine Or.inl ⟨rfl, [], .error err, ?_⟩
    rw [List.append_nil]
    exact hf
  | ok confirmed =>
    obtain ⟨hreach, hsnd⟩ := reaches_useLeft.mp hrest
    rw [hsnd]
    refine Or.inr ⟨confirmed, hf, reaches_bind_pure hreach fun a => ?_⟩
    cases a with
    | ok identity => exact ⟨_, rfl⟩
    | error err => cases err <;> exact ⟨_, rfl⟩

theorem runs_confirmAndPersist {r : Except (Failure lib) StationIdentity} :
    Runs (beside Steady) (confirmAndPersist lib inp perchpubUrl material csr overwrite) (disk, []) r t ↔
      (∃ err, Follows (exchange lib inp perchpubUrl material csr) t.2 (.error err) ∧ t.1 = disk ∧
        r = .error (mapConfirmError lib err)) ∨
      ∃ confirmed, Follows (exchange lib inp perchpubUrl material csr) t.2 (.ok confirmed) ∧
        Runs Steady (persistIdentity lib inp confirmed csr overwrite) disk r t.1 := by
  constructor
  · intro h
    obtain ⟨answer, u, hpost, hrest⟩ := (runs_bind _ _ _ _ _).mp h
    obtain ⟨hist, hf, rfl⟩ := runs_useRight.mp hpost
    cases answer with
    | error err =>
      obtain ⟨rfl, rfl⟩ := hrest
      exact Or.inl ⟨err, hf, rfl, rfl⟩
    | ok confirmed =>
      obtain ⟨hrun, hsnd⟩ := runs_useLeft.mp hrest
      rw [hsnd]
      exact Or.inr ⟨confirmed, hf, hrun⟩
  · rintro (⟨err, hf, hfst, rfl⟩ | ⟨confirmed, hf, hrun⟩)
    · exact (runs_bind _ _ _ _ _).mpr ⟨.error err, t,
        runs_useRight.mpr ⟨t.2, hf, Prod.ext hfst rfl⟩, rfl, rfl⟩
    · exact (runs_bind _ _ _ _ _).mpr ⟨.ok confirmed, (disk, t.2),
        runs_useRight.mpr ⟨t.2, hf, rfl⟩, runs_useLeft.mpr ⟨hrun, rfl⟩⟩

/-! ## No credentials are found in the way -/

/-- The error is not that credentials exist. -/
def NotInTheWay {α : Type} (r : Except IdentityError α) : Prop :=
  ∀ path existing, r ≠ .error (.alreadyExists path existing)

section NotInTheWay

variable {α β : Type} {p : CredAct (Except IdentityError α)}

theorem notInTheWay_ok (a : α) : NotInTheWay (.ok a) := by
  intro path existing h
  cases h

theorem notInTheWay_io (path : CredPath) (source : IoError) :
    NotInTheWay (.error (.io path source) : Except IdentityError α) := by
  intro path existing h
  cases h

theorem NotInTheWay.error {err : IdentityError} (h : NotInTheWay (.error err : Except IdentityError α)) :
    NotInTheWay (.error err : Except IdentityError β) := by
  intro path existing heq
  obtain rfl := Except.error.inj heq
  exact h path existing rfl

theorem yields_removeDirIfExists (d : CredDir) :
    Yields NotInTheWay (Identity.removeDirIfExists d) := by
  refine yields_bind fun v => ?_
  split
  · exact yields_pure (notInTheWay_ok _)
  · exact yields_pure (notInTheWay_ok _)
  · exact yields_pure (notInTheWay_io _ _)

theorem yields_writeMode (d : CredDir) (name : String) (contents : CredBlob) :
    Yields NotInTheWay (Identity.writeMode d name contents) := by
  refine yields_bind fun v => ?_
  split
  · exact yields_pure (notInTheWay_io _ _)
  refine yields_bind fun v => ?_
  split
  · exact yields_pure (notInTheWay_io _ _)
  refine yields_bind fun v => ?_
  split
  · exact yields_pure (notInTheWay_io _ _)
  · exact yields_pure (notInTheWay_ok _)

theorem yields_stage (opts : Identity.SaveOptions) : Yields NotInTheWay (Identity.stage opts) := by
  refine (yields_removeDirIfExists _).bind fun v hv => ?_
  split
  · exact yields_pure hv.error
  refine (yields_removeDirIfExists _).bind fun v hv => ?_
  split
  · exact yields_pure hv.error
  refine yields_bind fun v => ?_
  split
  · exact yields_pure (notInTheWay_io _ _)
  refine yields_bind fun v => ?_
  split
  · exact yields_pure (notInTheWay_io _ _)
  refine (yields_writeMode _ _ _).bind fun v hv => ?_
  split
  · exact yields_pure hv.error
  refine (yields_writeMode _ _ _).bind fun v hv => ?_
  split
  · exact yields_pure hv.error
  refine (yields_writeMode _ _ _).bind fun v hv => ?_
  split
  · exact yields_pure hv.error
  refine (yields_writeMode _ _ _).bind fun v hv => ?_
  split
  · exact yields_pure hv.error
  refine yields_bind fun v => ?_
  split
  · exact yields_pure (notInTheWay_io _ _)
  · exact yields_pure (notInTheWay_ok _)

theorem yields_promote (credsExisted : Bool) : Yields NotInTheWay (Identity.promote credsExisted) := by
  refine yields_bind fun v => ?_
  split
  · exact yields_pure (notInTheWay_ok _)
  split_ifs
  · exact yields_bind fun v => yields_pure (notInTheWay_io _ _)
  · exact yields_pure (notInTheWay_io _ _)

theorem yields_swap : Yields NotInTheWay Identity.swap := by
  have hrotate : ∀ credsExisted, Yields NotInTheWay (Identity.rotate credsExisted) := by
    intro credsExisted
    unfold Identity.rotate
    split_ifs
    · refine yields_bind fun v => ?_
      split
      · exact yields_pure (notInTheWay_io _ _)
      · exact yields_promote true
    · exact yields_promote false
  refine yields_bind fun credsExisted => ?_
  refine (hrotate credsExisted).bind fun v hv => ?_
  split
  · exact yields_pure hv.error
  · exact yields_pure (notInTheWay_ok _)

theorem yields_load (pki : Pki) : Yields NotInTheWay (Identity.load pki) := by
  refine yields_bind fun v => ?_
  split
  · exact yields_pure (notInTheWay_io _ _)
  split
  · exact yields_pure fun path existing h => by cases h
  refine yields_bind fun v => ?_
  split
  · exact yields_pure (notInTheWay_io _ _)
  split
  · rename_i hparse
    refine yields_pure fun path existing h => ?_
    obtain rfl := Except.error.inj h
    unfold Identity.parseCertNotAfter at hparse
    split at hparse
    · cases hparse
    · cases hparse
    · split at hparse <;> cases hparse
  · exact yields_pure (notInTheWay_ok _)

theorem yields_settle (pki : Pki) (credsExisted : Bool) :
    Yields NotInTheWay (Identity.settle pki credsExisted) := by
  refine yields_bind fun v => ?_
  split
  · exact yields_pure (notInTheWay_io _ _)
  · exact yields_bind fun _ => yields_load pki

end NotInTheWay

/-- What `peek_existing_station_id` makes of the directory `credentials/`. -/
def stationIdIn (folder : Option Folder) : Except IdentityError (Option Uuid) :=
  match Identity.asText (Identity.readIn folder Identity.identityFile) with
  | .ok contents =>
    match Identity.decodeIdentity contents with
    | some file => .ok (some file.stationId)
    | none => .error (.parse (.file .credentials Identity.identityFile))
  | .error .notFound => .ok none
  | .error source => .error (.io (.file .credentials Identity.identityFile) source)

theorem runs_peekExistingStationId {v : Except IdentityError (Option Uuid)} {u : Disk} :
    Runs Steady Identity.peekExistingStationId disk v u ↔
      v = stationIdIn (disk.get .credentials) ∧ u = disk := by
  unfold stationIdIn
  rw [Identity.peekExistingStationId, runs_bind_of_look fun _ _ => Identity.runs_readToString]
  cases Identity.asText (Identity.readIn (disk.get .credentials) Identity.identityFile) with
  | ok contents =>
    dsimp only
    cases Identity.decodeIdentity contents <;> exact runs_pure
  | error source => cases source <;> exact runs_pure

theorem notInTheWay_stationIdIn (folder : Option Folder) : NotInTheWay (stationIdIn folder) := by
  intro path existing h
  unfold stationIdIn at h
  split at h
  · split at h <;> cases h
  · cases h
  · cases h

/-- Where no station id was found before, the early refusal of a save finds none. -/
theorem notInTheWay_refuse {opts : Identity.SaveOptions} {r : Except IdentityError Unit} {u : Disk}
    (hnone : opts.overwrite = false → Runs Steady Identity.previousStationId disk none disk)
    (h : Runs Steady (Identity.refuse opts) disk r u) : NotInTheWay r := by
  unfold Identity.refuse at h
  split_ifs at h with hover
  · obtain ⟨rfl, -⟩ := h
    exact notInTheWay_ok ()
  obtain ⟨v, w, hpeek, hprevious⟩ := (runs_bind _ _ _ _ _).mp (hnone (by simpa using hover))
  obtain ⟨rfl, rfl⟩ := runs_peekExistingStationId.mp hpeek
  obtain ⟨v, w', hpeek, hrest⟩ := (runs_bind _ _ _ _ _).mp h
  obtain ⟨rfl, rfl⟩ := runs_peekExistingStationId.mp hpeek
  have hway := notInTheWay_stationIdIn (w'.get .credentials)
  cases hid : stationIdIn (w'.get .credentials) with
  | error err =>
    rw [hid] at hrest hway
    obtain ⟨rfl, -⟩ := hrest
    exact hway.error
  | ok previous =>
    rw [hid] at hprevious hrest
    obtain ⟨rfl, -⟩ := hprevious
    obtain ⟨rfl, -⟩ := hrest
    exact notInTheWay_ok ()

/-- A save of the command does not find credentials in its way. -/
theorem notInTheWay_save {opts : Identity.SaveOptions} {r : Except IdentityError StationIdentity}
    {u : Disk} (hnone : opts.overwrite = false → Runs Steady Identity.previousStationId disk none disk)
    (h : Runs Steady (Identity.save lib.pki opts) disk r u) : NotInTheWay r := by
  obtain ⟨installed, w, hinstall, hrest⟩ := (runs_bind _ _ _ _ _).mp h
  have hway : NotInTheWay installed := by
    obtain ⟨refused, w', hrefuse, hstage⟩ := (runs_bind _ _ _ _ _).mp hinstall
    have hrefused := notInTheWay_refuse hnone hrefuse
    cases refused with
    | error err =>
      obtain ⟨rfl, -⟩ := hstage
      exact hrefused.error
    | ok _ =>
      refine Yields.runs ?_ hstage
      refine (yields_stage opts).bind fun v hv => ?_
      split
      · exact yields_pure hv.error
      · exact yields_swap
  cases installed with
  | error err =>
    obtain ⟨rfl, -⟩ := hrest
    exact hway.error
  | ok credsExisted => exact (yields_settle _ _).runs hrest

theorem Prepared.no_previous (h : Prepared inp disk perchpubUrl material csr overwrite)
    (hover : overwrite = false) : Runs Steady Identity.previousStationId disk none disk := by
  obtain ⟨reusedKey, previous, -, hprevious, heq⟩ := h.obtained
  rw [hover] at heq
  cases previous with
  | none => exact hprevious
  | some existing => simp at heq

/-- A save that fails is a failure of the station. -/
theorem local_of_persistIdentity {confirmed : Confirm.ConfirmedEnrollment} {err : Failure lib}
    {u : Disk} (hprep : Prepared inp disk perchpubUrl material csr overwrite)
    (h : Runs Steady (persistIdentity lib inp confirmed csr overwrite) disk (.error err) u) :
    Local err := by
  obtain ⟨r, w, hsave, hrest⟩ := (runs_bind _ _ _ _ _).mp h
  have hway : NotInTheWay r := notInTheWay_save hprep.no_previous hsave
  split at hrest
  · cases hrest.1
  · exact absurd rfl (hway _ _)
  · obtain ⟨heq, -⟩ := hrest
    obtain rfl := Except.error.inj heq
    exact Or.inr rfl

end Rules

end Command

end Perchstation
