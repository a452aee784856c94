import Perchstation.Capture.Staging
import Perchstation.Enrollment.Outcome
import Perchstation.Identity.Expiry

/-!
# Boot — `serve` up to `service.ready` (`commands/serve.rs`)

The command checks its configuration, loads the credentials, registers the key's lines for redaction,
builds the mTLS client, brings the queue in order and empties the staging directory.  The URL and TLS
libraries are parameters; logging and `sd_notify` are left out.
-/

namespace Perchstation

open Resumption QueueStore

/-! ## The upload base (`config.rs`) -/

/-- `Config` with the field that `upload_base` reads besides. -/
structure RuntimeConfig extends OperatorConfig where
  uploadUrl : Option String

/-- The `url` crate. -/
structure UrlLibrary where
  parse : String → Except String Url
  setPort : Url → UInt16 → Option Url

/-- `UPLOAD_PORT`. -/
def uploadPort : UInt16 := 8443

def deriveUploadUrl (urls : UrlLibrary) (enrollmentUrl : String) : Except ConfigError String :=
  match urls.parse enrollmentUrl with
  | .error message => .error (.outOfRange "perchpub_url" ("not a valid URL: " ++ message))
  | .ok url =>
    match urls.setPort url uploadPort with
    | none =>
      .error (.outOfRange "perchpub_url" ("cannot set upload port 8443 on `" ++ enrollmentUrl ++ "`"))
    | some url => .ok (PerchpubClient.trimEndSlashes url.text)

def RuntimeConfig.uploadBase (self : RuntimeConfig) (urls : UrlLibrary) : Except ConfigError String :=
  match self.uploadUrl.filter fun url => !url.isEmpty with
  | some explicit => .ok explicit
  | none =>
    match self.perchpubUrl.filter fun url => !url.isEmpty with
    | none => .error (.missingRequired "perchpub_url")
    | some enrollment => deriveUploadUrl urls enrollment

/-! ## The queue (`queue/store.rs`) -/

/-- The loop of `QueueStore::open`. -/
def createDirs : List Dir → Act (Except QueueError Unit)
  | [] => return .ok ()
  | d :: rest => do
    match ← createDirAll d with
    | .error source => return .error (.io (.directory d) source)
    | .ok () => createDirs rest

/-- `QueueStore::open`. -/
def openStore : Act (Except QueueError Unit) := createDirs [.pending, .inflight, .delivered, .corrupt]

/-- The loop of `count_pending` over the entries of the directory. -/
def countEntries : UInt32 → List Path → UInt32
  | count, [] => count
  | count, p :: rest =>
    countEntries (if p.hasExt .json then saturatingAdd32 count 1 else count) rest

def countPending : Act (Except IoError UInt32) := do
  match ← readDir .pending with
  | .error source => return .error source
  | .ok entries => return .ok (countEntries 0 entries)

/-! ## The staging directory (`capture/staging.rs`) -/

inductive BootReq
  | queue (r : Req)
  | createStaging
  | listStaging
  /-- The metadata of an entry: the length of a regular file. -/
  | statStaging (name : String)

@[reducible] def BootRep : BootReq → Type
  | .queue r => Rep r
  | .createStaging => Except IoError Unit
  | .listStaging => Except IoError (List (Except IoError String))
  | .statStaging _ => Except IoError (Option UInt64)

abbrev DataAct (α : Type) : Type := Prog BootReq BootRep α

def onQueueDir {α : Type} (p : Act α) : DataAct α := embed BootReq.queue (fun _ v => v) p

structure PurgeReport where
  removedFiles : UInt32
  removedBytes : UInt64

/-- The loop of `purge` over the entries of the staging directory. -/
def purgeLoop : PurgeReport → List (Except IoError String) → DataAct (Except IoError PurgeReport)
  | report, [] => return .ok report
  | _, .error err :: _ => return .error err
  | report, .ok name :: rest => do
    match ← Prog.request (BootReq.statStaging name) with
    | .error .notFound => purgeLoop report rest
    | .error err => return .error err
    | .ok none => purgeLoop report rest
    | .ok (some len) =>
      match ← onQueueDir (removeFile (.source name)) with
      | .ok () =>
        purgeLoop ⟨saturatingAdd32 report.removedFiles 1, saturatingAdd64 report.removedBytes len⟩ rest
      | .error .notFound => purgeLoop report rest
      | .error err => return .error err

def purge : DataAct (Except IoError PurgeReport) := do
  match ← Prog.request BootReq.createStaging with
  | .error err => return .error err
  | .ok () =>
    match ← Prog.request BootReq.listStaging with
    | .error err => return .error err
    | .ok entries => purgeLoop ⟨0, 0⟩ entries

/-- `purge_capture_staging_or_disable`. -/
def purgeCaptureStagingOrDisable : DataAct (Option PurgeReport) := do
  match ← purge with
  | .ok report => return some report
  | .error _ => return none

/-! ## The command -/

/-- The libraries under the station's commands. -/
structure StationLibrary extends EnrollLibrary where
  urls : UrlLibrary
  tls : Identity.Tls
  /-- The text of an identity file. -/
  identityText : IdentityFile → Text

/-- The text of a credential file; binary files are refused where text is read. -/
def StationLibrary.textOf (lib : StationLibrary) : CredBlob → Text
  | .identity file => lib.identityText file
  | .text s => s.toList
  | .binary _ => []

/-- What `PerchpubClient::new` fails with. -/
inductive ClientInitError
  | build (err : Identity.ClientBuildError)
  | invalidUrl (url message : String)

/-- What the message of a failed `serve` is made of. -/
inductive ServeCause
  | config (err : ConfigError)
  | notEnrolled (path : CredPath)
  | identity (err : IdentityError)
  | stationKey (path : CredPath) (source : IoError)
  | client (err : ClientInitError)
  | queueInit (err : QueueError)
  | reconciliation (err : QueueError)
  | countPending (source : IoError)

abbrev ServeFailure : Type := CommandError ServeCause

/-- What the credentials give `serve`. -/
structure Credentials where
  identity : StationIdentity
  registry : RedactionRegistry
  client : PerchpubClient
  inner : Identity.MtlsClient

/-- What the tasks are started with. -/
structure Ready extends Credentials where
  recovered : List ClipQueueEntry
  pendingAtStart : UInt32
  /-- Without a report the capture task is not started. -/
  purge : Option PurgeReport

namespace Serve

section Definitions

variable (lib : StationLibrary)

abbrev BootAct (α : Type) : Type := Prog (CredReq ⊕ BootReq) (Both CredRep BootRep) α

/-- `PerchpubClient::new`. -/
def newClient (baseUrl : String) :
    CredAct (Except ClientInitError (PerchpubClient × Identity.MtlsClient)) := do
  match ← Identity.buildInner lib.tls with
  | .error err => return .error (.build err)
  | .ok inner =>
    match lib.urls.parse (PerchpubClient.trimEndSlashes baseUrl) with
    | .error message => return .error (.invalidUrl baseUrl message)
    | .ok url => return .ok (⟨lib.urls.parse, url⟩, inner)

/-- The part of `run` that reads the credentials. -/
def loadCredentials (registry : RedactionRegistry) (uploadBase : String) :
    CredAct (Except ServeFailure Credentials) := do
  match ← Identity.load lib.pki with
  | .error (.io path .notFound) => return .error (.unrecoverable (.notEnrolled path))
  | .error err => return .error (.io (.identity err))
  | .ok identity =>
    match ← Identity.readToString .credentials Identity.stationKeyFile with
    | .error source =>
      return .error (.io (.stationKey (.file .credentials Identity.stationKeyFile) source))
    | .ok keyPem =>
      match ← newClient lib uploadBase with
      | .error err => return .error (.io (.client err))
      | .ok (client, inner) =>
        return .ok ⟨identity, registerStationKeySecrets registry (lib.textOf keyPem), client, inner⟩

/-- The part of `run` that brings the queue in order. -/
def prepareQueue : Act (Except ServeFailure (List ClipQueueEntry × UInt32)) := do
  match ← openStore with
  | .error err => return .error (.io (.queueInit err))
  | .ok () =>
    match ← reconcileInflight with
    | .error err => return .error (.io (.reconciliation err))
    | .ok recovered =>
      match ← countPending with
      | .error source => return .error (.io (.countPending source))
      | .ok pendingAtStart => return .ok (recovered, pendingAtStart)

/-- `run` up to `service.ready`. -/
def boot (cfg : RuntimeConfig) (registry : RedactionRegistry) : BootAct (Except ServeFailure Ready) :=
  match cfg.toOperatorConfig.ensureRuntimeReady with
  | .error err => return .error (.config (.config err))
  | .ok () =>
    match cfg.uploadBase lib.urls with
    | .error err => return .error (.config (.config err))
    | .ok uploadBase => do
      match ← useLeft (loadCredentials lib registry uploadBase) with
      | .error err => return .error err
      | .ok creds =>
        match ← useRight (onQueueDir prepareQueue) with
        | .error err => return .error err
        | .ok (recovered, pendingAtStart) =>
          let purge ← useRight purgeCaptureStagingOrDisable
          return .ok ⟨creds, recovered, pendingAtStart, purge⟩

end Definitions

end Serve

/-! ## The environment -/

/-- The answers without faults, with directories of these names below the staging directory. -/
def Quiet (dirs : Finset String) : Env BootReq BootRep Fs
  | fs, .queue r, v, t => Nominal fs r v t
  | fs, .createStaging, v, t => v = .ok () ∧ t = fs
  | fs, .listStaging, v, t => t = fs ∧ ∃ l : List String,
      (∀ name, name ∈ l ↔ (fs.get (.source name)).isSome ∨ name ∈ dirs) ∧ v = .ok (l.map .ok)
  | fs, .statStaging name, v, t => t = fs ∧
      match fs.get (.source name) with
      | some b => ∃ n, b.HasLen n ∧ v = .ok (some n)
      | none => v = if name ∈ dirs then .ok none else .error .notFound

section Rules

variable {dirs : Finset String} {fs t : Fs} {α : Type}

theorem runs_onQueueDir {p : Act α} {a : α} :
    Runs (Quiet dirs) (onQueueDir p) fs a t ↔ Runs Nominal p fs a t := by
  induction p generalizing fs with
  | pure b => exact Iff.rfl
  | ask r k ih =>
    constructor
    · rintro ⟨v, u, hv, h⟩
      exact ⟨v, u, hv, (ih v).mp h⟩
    · rintro ⟨v, u, hv, h⟩
      exact ⟨v, u, hv, (ih v).mpr h⟩

theorem runs_openStore {r : Except QueueError Unit} :
    Runs Nominal openStore fs r t ↔ r = .ok () ∧ t = fs := by
  have hdirs : ∀ ds, Runs Nominal (createDirs ds) fs r t ↔ r = .ok () ∧ t = fs := by
    intro ds
    induction ds with
    | nil => exact Iff.rfl
    | cons d rest ih =>
      rw [createDirs, runs_bind]
      constructor
      · rintro ⟨v, u, hv, h⟩
        obtain ⟨rfl, rfl⟩ : v = .ok () ∧ u = fs := runs_request.mp hv
        exact ih.mp h
      · exact fun h => ⟨.ok (), fs, runs_request.mpr ⟨rfl, rfl⟩, ih.mpr h⟩
  exact hdirs _

theorem countEntries_toNat (count : UInt32) (l : List Path) :
    (countEntries count l).toNat =
      min (count.toNat + (l.filter (·.hasExt .json)).length) (2 ^ 32 - 1) := by
  induction l generalizing count with
  | nil =>
    have hlt := count.toNat_lt
    simp only [countEntries, List.filter_nil, List.length_nil]
    omega
  | cons p rest ih =>
    rw [countEntries, ih, List.filter_cons]
    by_cases hp : p.hasExt .json = true
    · have h1 : (1 : UInt32).toNat = 1 := rfl
      rw [if_pos hp, if_pos hp, saturatingAdd32_toNat, List.length_cons]
      omega
    · rw [if_neg hp, if_neg hp]

theorem runs_countPending {r : Except IoError UInt32} :
    Runs Nominal countPending fs r t ↔ t = fs ∧ ∃ l, fs.Lists (fun p => p.inDir .pending) l ∧
      r = .ok (countEntries 0 l) := by
  rw [countPending, runs_bind]
  constructor
  · rintro ⟨v, u, hv, h⟩
    obtain ⟨rfl, l, hl, rfl⟩ := runs_readDir.mp hv
    exact ⟨h.2, l, hl, h.1⟩
  · rintro ⟨rfl, l, hl, rfl⟩
    exact ⟨_, t, runs_readDir.mpr ⟨rfl, l, hl, rfl⟩, rfl, rfl⟩

/-- The files outside the staging directory are the same. -/
def SameQueue (fs t : Fs) : Prop := ∀ p, p.isStaged = false → t.get p = fs.get p

/-- The loop goes through all entries and removes the files among them. -/
theorem runs_purgeLoop {names : List String} {report : PurgeReport} {r : Except IoError PurgeReport}
    (h : Runs (Quiet dirs) (purgeLoop report (names.map .ok)) fs r t) :
    (∃ report', r = .ok report') ∧ (∀ name ∈ names, t.get (.source name) = none) ∧
      (∀ name, fs.get (.source name) = none → t.get (.source name) = none) ∧ SameQueue fs t := by
  induction names generalizing report fs with
  | nil =>
    obtain ⟨rfl, rfl⟩ := h
    exact ⟨⟨_, rfl⟩, fun name hname => absurd hname List.not_mem_nil, fun _ => id, fun _ _ => rfl⟩
  | cons name rest ih =>
    -- what holds of the rest of the loop from a state in which this file is gone
    have hgo : ∀ {u report'}, u.get (.source name) = none →
        (∀ other, fs.get (.source other) = none → u.get (.source other) = none) → SameQueue fs u →
        Runs (Quiet dirs) (purgeLoop report' (rest.map .ok)) u r t →
        (∃ report', r = .ok report') ∧ (∀ n ∈ name :: rest, t.get (.source n) = none) ∧
          (∀ n, fs.get (.source n) = none → t.get (.source n) = none) ∧ SameQueue fs t := by
      intro u report' hgone hnone hsame hrun
      obtain ⟨hok, hall, hkept, hqueue⟩ := ih hrun
      refine ⟨hok, ?_, fun n hn => hkept n (hnone n hn), fun p hp => (hqueue p hp).trans (hsame p hp)⟩
      intro n hn
      rcases List.mem_cons.mp hn with rfl | hn
      · exact hkept n hgone
      · exact hall n hn
    rw [List.map_cons, purgeLoop, runs_bind] at h
    obtain ⟨v, u, hstat, h⟩ := h
    obtain ⟨rfl, hv⟩ := runs_request.mp hstat
    cases hget : u.get (.source name) with
    | none =>
      -- a directory, or gone by itself
      rw [hget] at hv
      by_cases hdir : name ∈ dirs
      · rw [if_pos hdir] at hv
        subst hv
        exact hgo hget (fun _ => id) (fun _ _ => rfl) h
      · rw [if_neg hdir] at hv
        subst hv
        exact hgo hget (fun _ => id) (fun _ _ => rfl) h
    | some b =>
      -- a file: it is removed
      rw [hget] at hv
      obtain ⟨n, -, rfl⟩ := hv
      dsimp only at h
      rw [runs_bind] at h
      obtain ⟨w, fs', hrm, h⟩ := h
      have hremoved := runs_request.mp (runs_onQueueDir.mp hrm)
      simp only [Nominal, hget] at hremoved
      obtain ⟨rfl, rfl⟩ := hremoved
      refine hgo ?_ (fun other hother => get_del_source_eq_none hother) (fun p hp => ?_) h
      · rw [FileMap.get_del, if_pos rfl]
      · rw [FileMap.get_del, if_neg]
        rintro rfl
        cases hp

/-- Without faults a purge empties the staging directory and leaves the queue alone. -/
theorem runs_purgeCaptureStagingOrDisable {r : Option PurgeReport}
    (h : Runs (Quiet dirs) purgeCaptureStagingOrDisable fs r t) :
    r.isSome ∧ EmptyStaging t ∧ SameQueue fs t := by
  rw [purgeCaptureStagingOrDisable, runs_bind] at h
  obtain ⟨v, u, hpurge, h⟩ := h
  rw [purge, runs_bind] at hpurge
  obtain ⟨created, w, hcreate, hpurge⟩ := hpurge
  obtain ⟨rfl, rfl⟩ : created = .ok () ∧ w = fs := runs_request.mp hcreate
  dsimp only at hpurge
  rw [runs_bind] at hpurge
  obtain ⟨listed, w', hlist, hpurge⟩ := hpurge
  obtain ⟨rfl, names, hnames, rfl⟩ := runs_request.mp hlist
  obtain ⟨⟨report, rfl⟩, hgone, hkept, hsame⟩ := runs_purgeLoop hpurge
  obtain ⟨rfl, rfl⟩ := h
  refine ⟨rfl, fun name => ?_, hsame⟩
  cases hget : w'.get (.source name) with
  | none => exact hkept name hget
  | some b => exact hgone name ((hnames name).mpr (Or.inl (by rw [hget]; rfl)))

end Rules

end Perchstation
