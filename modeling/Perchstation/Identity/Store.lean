import Perchstation.Identity.Disk

/-!
# Identity store — the credentials of a station (`identity.rs`)

`save` is cut into its parts: the early refusal, the staging of the four files, the swap of the
directories, and what follows the swap.  Parsing a certificate or a private key is third-party code
and a parameter (`Pki`); file modes are left out.
-/

namespace Perchstation

/-- Why `x509_parser` rejects a certificate. -/
inductive CertFault
  | pem (message : String)
  | x509 (message : String)

/-- The parsers of key and certificate files. -/
structure Pki where
  KeyPair : Type
  /-- `SubjectPublicKeyInfo`. -/
  Spki : Type
  spki : KeyPair → Spki
  /-- The `not_after` of the certificate in a file, in seconds after the epoch. -/
  notAfter : CredBlob → Except CertFault ℤ
  /-- `KeyPair::from_pem`. -/
  fromPem : CredBlob → Except String KeyPair
  /-- `KeyPair::serialize_pem`. -/
  serializePem : KeyPair → String

inductive IdentityError
  | io (path : CredPath) (source : IoError)
  | parse (path : CredPath)
  | certPem (path : CredPath) (message : String)
  | keyPem (path : CredPath) (message : String)
  | certX509 (path : CredPath) (message : String)
  | certNotAfter (timestamp : ℤ)
  | alreadyExists (path : CredPath) (existingStationId : Uuid)

structure StationIdentity where
  stationId : Uuid
  enrolledAt : DateTime
  perchpubUrl : String
  certNotAfter : DateTime

/-- `cert_is_expired`. -/
def StationIdentity.certIsExpired (identity : StationIdentity) (now : DateTime) : Bool :=
  identity.certNotAfter ≤ now

namespace Identity

def identityFile : String := "identity.json"
def stationKeyFile : String := "station.key"
def stationCertFile : String := "station.crt"
def caChainFile : String := "ca_chain.pem"

/-- Inputs to `save`. -/
structure SaveOptions where
  stationId : Uuid
  enrolledAt : DateTime
  perchpubUrl : String
  stationKeyPem : CredBlob
  stationCertPem : CredBlob
  caChainPem : CredBlob
  overwrite : Bool

/-! ## Requests as programs -/

def readFile (d : CredDir) (name : String) : CredAct (Except IoError CredBlob) :=
  askCred (.readFile d name)

/-- `fs::read_to_string`. -/
def readToString (d : CredDir) (name : String) : CredAct (Except IoError CredBlob) := do
  match ← readFile d name with
  | .error source => return .error source
  | .ok (.binary _) => return .error (.other 0 "stream did not contain valid UTF-8")
  | .ok contents => return .ok contents

/-- The loop of `remove_dir_all` over the names of a directory; a file that is gone is passed over. -/
def unlinkLoop (d : CredDir) : List String → CredAct (Except IoError Unit)
  | [] => return .ok ()
  | name :: rest => do
    match ← askCred (.removeFile d name) with
    | .ok () => unlinkLoop d rest
    | .error .notFound => unlinkLoop d rest
    | .error source => return .error source

/-- `fs::remove_dir_all`. -/
def removeDirAll (d : CredDir) : CredAct (Except IoError Unit) := do
  match ← askCred (.listFolder d) with
  | .error source => return .error source
  | .ok names =>
    match ← unlinkLoop d names with
    | .error source => return .error source
    | .ok () => askCred (.removeFolder d)

def removeDirIfExists (d : CredDir) : CredAct (Except IdentityError Unit) := do
  match ← removeDirAll d with
  | .ok () => return .ok ()
  | .error .notFound => return .ok ()
  | .error source => return .error (.io (.folder d) source)

/-- Create the file exclusively, write it and flush it. -/
def writeMode (d : CredDir) (name : String) (contents : CredBlob) :
    CredAct (Except IdentityError Unit) := do
  match ← askCred (.createNew d name) with
  | .error source => return .error (.io (.file d name) source)
  | .ok () =>
    match ← askCred (.writeAll d name contents) with
    | .error source => return .error (.io (.file d name) source)
    | .ok () =>
      match ← askCred (.syncFile d name) with
      | .error source => return .error (.io (.file d name) source)
      | .ok () => return .ok ()

/-- `serde_json::from_str::<IdentityFile>`. -/
def decodeIdentity : CredBlob → Option IdentityFile
  | .identity file => some file
  | _ => none

/-! ## Loading -/

/-- `Utc.timestamp_opt(timestamp, 0).single()`. -/
def timestampOpt (timestamp : ℤ) : Option DateTime :=
  if h : minUtc ≤ timestamp * nanosPerSec ∧ timestamp * nanosPerSec ≤ maxUtc then
    some (.ofSecs timestamp h)
  else none

def parseCertNotAfter (pki : Pki) (path : CredPath) (pem : CredBlob) :
    Except IdentityError DateTime :=
  match pki.notAfter pem with
  | .error (.pem message) => .error (.certPem path message)
  | .error (.x509 message) => .error (.certX509 path message)
  | .ok timestamp =>
    match timestampOpt timestamp with
    | some t => .ok t
    | none => .error (.certNotAfter timestamp)

/-- `StationIdentity::load`. -/
def load (pki : Pki) : CredAct (Except IdentityError StationIdentity) := do
  match ← readToString .credentials identityFile with
  | .error source => return .error (.io (.file .credentials identityFile) source)
  | .ok contents =>
    match decodeIdentity contents with
    | none => return .error (.parse (.file .credentials identityFile))
    | some file =>
      match ← readFile .credentials stationCertFile with
      | .error source => return .error (.io (.file .credentials stationCertFile) source)
      | .ok pem =>
        match parseCertNotAfter pki (.file .credentials stationCertFile) pem with
        | .error err => return .error err
        | .ok certNotAfter =>
          return .ok ⟨file.stationId, file.enrolledAt, file.perchpubUrl, certNotAfter⟩

def peekExistingStationId : CredAct (Except IdentityError (Option Uuid)) := do
  match ← readToString .credentials identityFile with
  | .ok contents =>
    match decodeIdentity contents with
    | some file => return .ok (some file.stationId)
    | none => return .error (.parse (.file .credentials identityFile))
  | .error .notFound => return .ok none
  | .error source => return .error (.io (.file .credentials identityFile) source)

def loadKeypair (pki : Pki) : CredAct (Except IdentityError pki.KeyPair) := do
  match ← readToString .credentials stationKeyFile with
  | .error source => return .error (.io (.file .credentials stationKeyFile) source)
  | .ok pem =>
    match pki.fromPem pem with
    | .ok keypair => return .ok keypair
    | .error message => return .error (.keyPem (.file .credentials stationKeyFile) message)

/-! ## Saving -/

/-- The early refusal of `save`. -/
def refuse (opts : SaveOptions) : CredAct (Except IdentityError Unit) :=
  if opts.overwrite then return .ok ()
  else do
    match ← peekExistingStationId with
    | .error err => return .error err
    | .ok none => return .ok ()
    | .ok (some existing) =>
      return .error (.alreadyExists (.file .credentials identityFile) existing)

/-- Sweep the leftovers of an aborted run and stage the four files. -/
def stage (opts : SaveOptions) : CredAct (Except IdentityError Unit) := do
  match ← removeDirIfExists .staging with
  | .error err => return .error err
  | .ok () =>
    match ← removeDirIfExists .rotated with
    | .error err => return .error err
    | .ok () =>
      match ← askCred .createDataDir with
      | .error source => return .error (.io .dataDir source)
      | .ok () =>
        match ← askCred (.createFolder .staging) with
        | .error source => return .error (.io (.folder .staging) source)
        | .ok () =>
          match ← writeMode .staging stationCertFile opts.stationCertPem with
          | .error err => return .error err
          | .ok () =>
            match ← writeMode .staging caChainFile opts.caChainPem with
            | .error err => return .error err
            | .ok () =>
              match ← writeMode .staging stationKeyFile opts.stationKeyPem with
              | .error err => return .error err
              | .ok () =>
                match ← writeMode .staging identityFile
                    (.identity ⟨opts.stationId, opts.enrolledAt, opts.perchpubUrl⟩) with
                | .error err => return .error err
                | .ok () =>
                  match ← askCred (.syncFolder .staging) with
                  | .error source => return .error (.io (.folder .staging) source)
                  | .ok () => return .ok ()

/-- Promote the staging directory; a failure moves the rotated one back. -/
def promote (credsExisted : Bool) : CredAct (Except IdentityError Unit) := do
  match ← askCred (.renameFolder .staging .credentials) with
  | .ok () => return .ok ()
  | .error source =>
    if credsExisted then
      let _ ← askCred (.renameFolder .rotated .credentials)
      return .error (.io (.folder .credentials) source)
    else
      return .error (.io (.folder .credentials) source)

/-- Rotate an existing `credentials/` out of the way, and promote. -/
def rotate (credsExisted : Bool) : CredAct (Except IdentityError Unit) :=
  if credsExisted then do
    match ← askCred (.renameFolder .credentials .rotated) with
    | .error source => return .error (.io (.folder .credentials) source)
    | .ok () => promote true
  else promote false

/-- The swap of the directories; `true` if there was a `credentials/`. -/
def swap : CredAct (Except IdentityError Bool) := do
  let credsExisted ← askCred (.folderExists .credentials)
  match ← rotate credsExisted with
  | .error err => return .error err
  | .ok () => return .ok credsExisted

/-- Remove the rotated directory, as far as that goes. -/
def cleanup (credsExisted : Bool) : CredAct Unit :=
  if credsExisted then do
    let _ ← removeDirAll .rotated
    return ()
  else return ()

/-- `save` up to the promotion. -/
def install (opts : SaveOptions) : CredAct (Except IdentityError Bool) := do
  match ← refuse opts with
  | .error err => return .error err
  | .ok () =>
    match ← stage opts with
    | .error err => return .error err
    | .ok () => swap

/-- `save` after the promotion. -/
def settle (pki : Pki) (credsExisted : Bool) : CredAct (Except IdentityError StationIdentity) := do
  match ← askCred .syncDataDir with
  | .error source => return .error (.io .dataDir source)
  | .ok () =>
    cleanup credsExisted
    load pki

def save (pki : Pki) (opts : SaveOptions) : CredAct (Except IdentityError StationIdentity) := do
  match ← install opts with
  | .error err => return .error err
  | .ok credsExisted => settle pki credsExisted

end Identity

end Perchstation
