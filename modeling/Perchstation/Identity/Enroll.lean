import Perchstation.Identity.SaveRules

/-!
# Enroll — one run of the `enroll` command (`commands/enroll.rs`)

`prepare` is the command up to `identity::save`: it picks the keypair, has the server confirm it and
fills in what is saved.  The QR source, the keypair generator, the CSR builder and the server are the
run's inputs; the texts and exit codes of the errors are left out.
-/

namespace Perchstation

open Resumption

namespace Identity

/-- What the server confirmed. -/
structure ConfirmedEnrollment where
  stationId : Uuid
  certificatePem : CredBlob
  caChainPem : CredBlob

/-- One run of `enroll`, with what its environment answers. -/
structure EnrollRun (pki : Pki) where
  force : Bool
  /-- `next_frame` and `decode_enrollment_session`. -/
  qr : Except String Unit
  /-- `KeyPair::generate_for`. -/
  generated : Except String pki.KeyPair
  /-- `csr::build_from_keypair`. -/
  csr : pki.KeyPair → Except String Unit
  /-- `confirm::send` over the CSR of the keypair. -/
  confirm : pki.KeyPair → Except String ConfirmedEnrollment
  perchpubUrl : String
  enrolledAt : DateTime

/-- The step of `enroll` that failed. -/
inductive EnrollError
  | qr (message : String)
  | csr (message : String)
  | keyLoad (err : IdentityError)
  | confirm (message : String)
  | persist (err : IdentityError)

variable {pki : Pki}

/-- `build_fresh_csr`. -/
def buildFreshCsr (run : EnrollRun pki) : Except EnrollError pki.KeyPair :=
  match run.generated with
  | .error message => .error (.csr message)
  | .ok keypair =>
    match run.csr keypair with
    | .error message => .error (.csr message)
    | .ok () => .ok keypair

/-- The keypair of the CSR, and whether it is the persisted one. -/
def chooseKey (run : EnrollRun pki) : CredAct (Except EnrollError (pki.KeyPair × Bool)) :=
  if run.force then return (buildFreshCsr run).map fun keypair => (keypair, false)
  else do
    match ← loadKeypair pki with
    | .ok existing =>
      match run.csr existing with
      | .error message => return .error (.csr message)
      | .ok () => return .ok (existing, true)
    | .error (.io _ .notFound) => return (buildFreshCsr run).map fun keypair => (keypair, false)
    | .error err => return .error (.keyLoad err)

/-- `peek_existing_station_id(..).ok().flatten()`. -/
def previousStationId : CredAct (Option Uuid) := do
  match ← peekExistingStationId with
  | .ok previous => return previous
  | .error _ => return none

/-- `enroll` up to the save. -/
def prepare (run : EnrollRun pki) : CredAct (Except EnrollError (pki.KeyPair × SaveOptions)) := do
  let previous ← previousStationId
  match run.qr with
  | .error message => return .error (.qr message)
  | .ok () =>
    match ← chooseKey run with
    | .error err => return .error err
    | .ok (keypair, reusedKey) =>
      match run.confirm keypair with
      | .error message => return .error (.confirm message)
      | .ok confirmed =>
        return .ok (keypair,
          { stationId := confirmed.stationId
            enrolledAt := run.enrolledAt
            perchpubUrl := run.perchpubUrl
            stationKeyPem := .text (pki.serializePem keypair)
            stationCertPem := confirmed.certificatePem
            caChainPem := confirmed.caChainPem
            overwrite := reusedKey || run.force || previous.isSome })

/-- `enroll`. -/
def enroll (run : EnrollRun pki) : CredAct (Except EnrollError StationIdentity) := do
  match ← prepare run with
  | .error err => return .error err
  | .ok (_, opts) =>
    match ← save pki opts with
    | .error err => return .error (.persist err)
    | .ok identity => return .ok identity

/-! ## Rules -/

variable {run : EnrollRun pki} {s t : Disk}

/-- What `load_keypair` makes of the directory `credentials/`. -/
def keypairIn (pki : Pki) (folder : Option Folder) : Except IdentityError pki.KeyPair :=
  match asText (readIn folder stationKeyFile) with
  | .error source => .error (.io (.file .credentials stationKeyFile) source)
  | .ok pem =>
    match pki.fromPem pem with
    | .ok keypair => .ok keypair
    | .error message => .error (.keyPem (.file .credentials stationKeyFile) message)

theorem runs_loadKeypair {r : Except IdentityError pki.KeyPair} :
    Runs Steady (loadKeypair pki) s r t ↔ r = keypairIn pki (s.get .credentials) ∧ t = s := by
  unfold keypairIn
  rw [loadKeypair, runs_bind_of_look fun _ _ => runs_readToString]
  cases asText (readIn (s.get .credentials) stationKeyFile) with
  | error source => exact runs_pure
  | ok pem =>
    dsimp only
    cases pki.fromPem pem <;> exact runs_pure

/-- The request changes no directory. -/
def Reads (r : CredReq) : Prop := ∀ d, ¬ r.Touches d

/-- A program that only reads leaves the disk as it is. -/
theorem eq_of_reads {α : Type} {p : CredAct α} (hp : Within Reads p) (h : Reaches Steady p s t) :
    t = s := by
  have hstep : ∀ u r v w, Reads r → Steady u r v w → u = s → w = s := by
    intro u r v w hr hw hu
    ext d
    rw [get_of_steady hw (hr d), hu]
  exact hp.reaches (I := fun u => u = s) hstep h rfl

theorem within_previousStationId : Within Reads previousStationId := by
  refine (within_peekExistingStationId _ fun _ => id).bind fun v => ?_
  split <;> exact within_pure _

theorem within_chooseKey (run : EnrollRun pki) : Within Reads (chooseKey run) := by
  have hload : Within Reads (loadKeypair pki) := by
    refine (within_readToString fun _ => id).bind fun v => ?_
    split
    · exact within_pure _
    · split <;> exact within_pure _
  unfold chooseKey
  split_ifs
  · exact within_pure _
  · refine hload.bind fun v => ?_
    split
    · split <;> exact within_pure _
    · exact within_pure _
    · exact within_pure _

theorem within_prepare (run : EnrollRun pki) : Within Reads (prepare run) := by
  refine within_previousStationId.bind fun v => ?_
  split
  · exact within_pure _
  · refine (within_chooseKey run).bind fun v => ?_
    split
    · exact within_pure _
    · split <;> exact within_pure _

/-- A key that loads is the one that is confirmed and saved again, over the existing credentials. -/
theorem chooseKey_reused {k k' : pki.KeyPair} {reused : Bool} (hforce : run.force = false)
    (hk : keypairIn pki (s.get .credentials) = .ok k)
    (h : Runs Steady (chooseKey run) s (.ok (k', reused)) t) : k' = k ∧ reused = true := by
  rw [chooseKey, hforce, if_neg (by decide), runs_bind_of_look fun _ _ => runs_loadKeypair, hk] at h
  dsimp only at h
  cases hcsr : run.csr k with
  | error message =>
    rw [hcsr] at h
    cases h.1
  | ok _ =>
    rw [hcsr] at h
    cases h.1
    exact ⟨rfl, rfl⟩

/-- What is saved is the key that was chosen. -/
theorem runs_prepare_ok {k : pki.KeyPair} {opts : SaveOptions}
    (h : Runs Steady (prepare run) s (.ok (k, opts)) t) : t = s ∧
      opts.stationKeyPem = .text (pki.serializePem k) ∧
      ∃ reused, Runs Steady (chooseKey run) s (.ok (k, reused)) s := by
  obtain ⟨previous, u, hpeek, hrest⟩ := (runs_bind _ _ _ _ _).mp h
  obtain rfl := eq_of_reads within_previousStationId hpeek.reaches
  cases hqr : run.qr with
  | error message =>
    rw [hqr] at hrest
    cases hrest.1
  | ok _ =>
    rw [hqr] at hrest
    obtain ⟨⟨k', reused⟩, w, hchoose, hend⟩ := hrest.bind_ok fun _ => ⟨_, rfl⟩
    obtain rfl := eq_of_reads (within_chooseKey run) hchoose.reaches
    dsimp only at hend
    cases hconf : run.confirm k' with
    | error message =>
      rw [hconf] at hend
      cases hend.1
    | ok confirmed =>
      rw [hconf] at hend
      obtain ⟨heq, rfl⟩ := hend
      obtain ⟨rfl, rfl⟩ := Prod.mk.inj (Except.ok.inj heq)
      exact ⟨rfl, rfl, reused, hchoose⟩

end Identity

end Perchstation
