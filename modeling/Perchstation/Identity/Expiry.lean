import Perchstation.Identity.Enroll
import Perchstation.Identity.Interrupted

/-!
# Expiry — the gate of the delivery loop and the certificate in use

`serve` loads the station identity once and gives it to the delivery runner, whose expiry gate reads
its `cert_not_after`.  The mTLS client is rebuilt from the credentials on every SIGHUP.  The two agree
at every instant exactly as long as the certificates the client takes up expire with the first one.
-/

namespace Perchstation

open Resumption

namespace Identity

/-! ## The client (`perchpub/client.rs`) -/

/-- What an mTLS client is built from; it presents `leaf`. -/
structure MtlsClient where
  leaf : CredBlob
  key : CredBlob
  caChain : Option CredBlob

inductive ClientBuildError
  | credentialIo (path : CredPath) (source : IoError)
  | tlsConfig (message : String)

/-- Whether the TLS library accepts the material: certificate, key and CA chain. -/
abbrev Tls : Type := CredBlob → CredBlob → Option CredBlob → Except String Unit

/-- `build_inner`. -/
def buildInner (tls : Tls) : CredAct (Except ClientBuildError MtlsClient) := do
  match ← readFile .credentials stationCertFile with
  | .error source => return .error (.credentialIo (.file .credentials stationCertFile) source)
  | .ok certPem =>
    match ← readFile .credentials stationKeyFile with
    | .error source => return .error (.credentialIo (.file .credentials stationKeyFile) source)
    | .ok keyPem =>
      match ← readFile .credentials caChainFile with
      | .ok caPem => return build certPem keyPem (some caPem)
      | .error .notFound => return build certPem keyPem none
      | .error source => return .error (.credentialIo (.file .credentials caChainFile) source)
where
  build (certPem keyPem : CredBlob) (caPem : Option CredBlob) : Except ClientBuildError MtlsClient :=
    match tls certPem keyPem caPem with
    | .error message => .error (.tlsConfig message)
    | .ok () => .ok ⟨certPem, keyPem, caPem⟩

/-- `PerchpubClient::reload`: on failure the previous client stays. -/
def reload (tls : Tls) (client : MtlsClient) : CredAct (Except ClientBuildError Unit × MtlsClient) := do
  match ← buildInner tls with
  | .error err => return (.error err, client)
  | .ok rebuilt => return (.ok (), rebuilt)

/-! ## A serving station -/

/-- The disk, the identity of the delivery runner, and the client in use. -/
structure Serving where
  disk : Disk
  identity : StationIdentity
  client : MtlsClient

inductive ServeEvent
  | saved (opts : SaveOptions)
  | sighup (result : Except ClientBuildError Unit)
  | iterated (now : DateTime) (halted : Bool)

variable {pki : Pki} {tls : Tls}

/-- `serve` up to the loops. -/
def Boot (pki : Pki) (tls : Tls) (st : Serving) : Prop :=
  Runs Steady (load pki) st.disk (.ok st.identity) st.disk ∧
    Runs Steady (buildInner tls) st.disk (.ok st.client) st.disk

inductive ServeStep (pki : Pki) (tls : Tls) : Serving → ServeEvent → Serving → Prop
  /-- A re-enrollment saves, with whatever result. -/
  | save {st : Serving} {opts : SaveOptions} {r : Except IdentityError StationIdentity} {t : Disk} :
      Runs Steady (save pki opts) st.disk r t →
      ServeStep pki tls st (.saved opts) { st with disk := t }
  /-- `await_shutdown` reloads the client. -/
  | sighup {st : Serving} {result : Except ClientBuildError Unit} {client : MtlsClient} {t : Disk} :
      Runs Steady (reload tls st.client) st.disk (result, client) t →
      ServeStep pki tls st (.sighup result) { st with disk := t, client := client }
  /-- The gate at the head of the loop of `DeliveryRunner::run`. -/
  | iterate {st : Serving} {now : DateTime} :
      ServeStep pki tls st (.iterated now (st.identity.certIsExpired now)) st

/-- The `not_after` of a certificate has been reached. -/
def CertExpired (pki : Pki) (leaf : CredBlob) (now : DateTime) : Prop :=
  ∃ notAfter, parseCertNotAfter pki (.file .credentials stationCertFile) leaf = .ok notAfter ∧
    notAfter ≤ now

/-- Whatever the clock shows, an iteration halts exactly if the client's certificate has expired. -/
def GateAgrees (pki : Pki) (tls : Tls) (st : Serving) : Prop :=
  ∀ now halted st', ServeStep pki tls st (.iterated now halted) st' →
    (halted = true ↔ CertExpired pki st.client.leaf now)

/-- The client's certificate expires when the runner's identity says. -/
def SameExpiry (pki : Pki) (st : Serving) : Prop :=
  parseCertNotAfter pki (.file .credentials stationCertFile) st.client.leaf =
    .ok st.identity.certNotAfter

/-- If the step is a reload that succeeds, the certificate on disk expires when the runner's identity
says. -/
def SteadyReload (pki : Pki) (st : Serving) : ServeEvent → Prop
  | .sighup (.ok ()) => ∃ pem, readIn (st.disk.get .credentials) stationCertFile = .ok pem ∧
      parseCertNotAfter pki (.file .credentials stationCertFile) pem = .ok st.identity.certNotAfter
  | _ => True

variable {st st' : Serving} {ev : ServeEvent}

theorem gateAgrees_iff : GateAgrees pki tls st ↔ SameExpiry pki st := by
  have hgate : GateAgrees pki tls st ↔ ∀ now : DateTime, st.identity.certNotAfter ≤ now ↔
      CertExpired pki st.client.leaf now := by
    constructor
    · intro h now
      have hnow := h now _ st .iterate
      rwa [StationIdentity.certIsExpired, decide_eq_true_iff] at hnow
    · rintro h now halted st' hstep
      cases hstep
      rw [StationIdentity.certIsExpired, decide_eq_true_iff]
      exact h now
  rw [hgate]
  constructor
  · intro h
    obtain ⟨notAfter, hparse, hle⟩ := (h st.identity.certNotAfter).mp le_rfl
    have hge := (h notAfter).mpr ⟨notAfter, hparse, le_rfl⟩
    rw [SameExpiry, hparse, le_antisymm hle hge]
  · intro h now
    constructor
    · exact fun hle => ⟨_, h, hle⟩
    · rintro ⟨notAfter, hparse, hle⟩
      rw [show st.identity.certNotAfter = notAfter from Except.ok.inj (h.symm.trans hparse)]
      exact hle

/-- A client that is built presents the certificate on disk. -/
theorem leaf_of_buildInner {s t : Disk} {client : MtlsClient}
    (h : Runs Steady (buildInner tls) s (.ok client) t) :
    readIn (s.get .credentials) stationCertFile = .ok client.leaf ∧ t = s := by
  have hbuild : ∀ {cert key ca}, buildInner.build tls cert key ca = .ok client →
      client.leaf = cert := by
    intro cert key ca hb
    unfold buildInner.build at hb
    split at hb
    · cases hb
    · obtain rfl := Except.ok.inj hb
      rfl
  rw [buildInner, runs_bind_of_look fun _ _ => runs_readFile] at h
  cases hcert : readIn (s.get .credentials) stationCertFile with
  | error source =>
    rw [hcert] at h
    cases h.1
  | ok cert =>
    rw [hcert] at h
    dsimp only at h
    rw [runs_bind_of_look fun _ _ => runs_readFile] at h
    cases hkey : readIn (s.get .credentials) stationKeyFile with
    | error source =>
      rw [hkey] at h
      cases h.1
    | ok key =>
      rw [hkey] at h
      dsimp only at h
      rw [runs_bind_of_look fun _ _ => runs_readFile] at h
      split at h
      · rw [hbuild h.1.symm]
        exact ⟨rfl, h.2⟩
      · rw [hbuild h.1.symm]
        exact ⟨rfl, h.2⟩
      · cases h.1

/-- A reload takes up the certificate on disk, or keeps the client. -/
theorem leaf_of_reload {s t : Disk} {client client' : MtlsClient}
    {result : Except ClientBuildError Unit}
    (h : Runs Steady (reload tls client) s (result, client') t) :
    (result = .ok () ∧ readIn (s.get .credentials) stationCertFile = .ok client'.leaf) ∨
      ((∃ err, result = .error err) ∧ client' = client) := by
  obtain ⟨v, u, hbuild, hend⟩ := (runs_bind _ _ _ _ _).mp h
  cases v with
  | error err =>
    obtain ⟨heq, rfl⟩ := hend
    obtain ⟨rfl, rfl⟩ := Prod.mk.inj heq
    exact Or.inr ⟨⟨err, rfl⟩, rfl⟩
  | ok rebuilt =>
    obtain ⟨heq, rfl⟩ := hend
    obtain ⟨rfl, rfl⟩ := Prod.mk.inj heq
    exact Or.inl ⟨rfl, (leaf_of_buildInner hbuild).1⟩

/-- The certificate that `load` reads is the one whose expiry it records. -/
theorem certNotAfter_of_loaded {folder : Option Folder} {identity : StationIdentity}
    (h : loaded pki folder = .ok identity) : ∃ pem, readIn folder stationCertFile = .ok pem ∧
      parseCertNotAfter pki (.file .credentials stationCertFile) pem = .ok identity.certNotAfter := by
  unfold loaded at h
  split at h
  · cases h
  split at h
  · cases h
  split at h
  · cases h
  next pem hpem =>
    split at h
    · cases h
    next notAfter hparse =>
      obtain rfl := Except.ok.inj h
      exact ⟨pem, hpem, hparse⟩

theorem Boot.sameExpiry (h : Boot pki tls st) : SameExpiry pki st := by
  obtain ⟨hload, hbuild⟩ := h
  obtain ⟨pem, hpem, hparse⟩ := certNotAfter_of_loaded (runs_load.mp hload).1.symm
  have hleaf := (leaf_of_buildInner hbuild).1
  rw [hpem] at hleaf
  rw [SameExpiry, ← Except.ok.inj hleaf, hparse]

/-- One step from an agreeing state: a steady reload is one after which the gate still agrees. -/
theorem ServeStep.steadyReload_iff (h : ServeStep pki tls st ev st') (hs : SameExpiry pki st) :
    SteadyReload pki st ev ↔ GateAgrees pki tls st' := by
  rw [gateAgrees_iff]
  cases h with
  | save _ => exact iff_of_true trivial hs
  | iterate => exact iff_of_true trivial hs
  | @sighup result client t hrun =>
    rcases leaf_of_reload hrun with ⟨rfl, hleaf⟩ | ⟨⟨err, rfl⟩, rfl⟩
    · constructor
      · rintro ⟨pem, hpem, hparse⟩
        rw [hleaf] at hpem
        show parseCertNotAfter pki _ client.leaf = _
        rw [Except.ok.inj hpem, hparse]
      · intro hsame
        exact ⟨client.leaf, hleaf, hsame⟩
    · exact iff_of_true trivial hs

/-- In a run of saves, reloads and iterations from the start of `serve`, the gate agrees with the
certificate in use after every step, whatever the clock shows, exactly if every certificate taken up
expires with the first one. -/
theorem expiry_gate_agrees_iff {tr : List (ServeEvent × Serving)} (h₀ : Boot pki tls st)
    (h : Exec (ServeStep pki tls) st tr st') : GateAgrees pki tls st ∧
    ((∀ a ev u, Exec.Takes (ServeStep pki tls) st tr a ev u → SteadyReload pki a ev) ↔
      ∀ a ev u, Exec.Takes (ServeStep pki tls) st tr a ev u → GateAgrees pki tls u) := by
  refine ⟨gateAgrees_iff.mpr h₀.sameExpiry, ?_⟩
  have hkeeps : ∀ a ev u, SameExpiry pki a → ServeStep pki tls a ev u → SteadyReload pki a ev →
      SameExpiry pki u := by
    intro a ev u ha hstep hgood
    exact gateAgrees_iff.mp ((hstep.steadyReload_iff ha).mp hgood)
  exact h.forall_good_iff h₀.sameExpiry hkeeps fun a ev u ha hstep => hstep.steadyReload_iff ha

/-! ## A renewal -/

/-- Parsers under which a renewed certificate runs a day longer. -/
def Pki.dated : Pki where
  KeyPair := String
  Spki := String
  spki := id
  notAfter
    | .text "renewed" => .ok 86400
    | _ => .ok 0
  fromPem
    | .text s => .ok s
    | _ => .error "not PEM"
  serializePem := id

/-- A TLS library that accepts everything. -/
def anyTls : Tls := fun _ _ _ => .ok ()

/-- The client of an enrollment. -/
def clientOf (opts : SaveOptions) : MtlsClient :=
  ⟨opts.stationCertPem, opts.stationKeyPem, some opts.caChainPem⟩

theorem readIn_staged (opts : SaveOptions) :
    readIn (some (staged opts)) stationCertFile = .ok opts.stationCertPem ∧
      readIn (some (staged opts)) stationKeyFile = .ok opts.stationKeyPem ∧
      readIn (some (staged opts)) caChainFile = .ok opts.caChainPem := by
  have h1 : stationCertFile ≠ identityFile := by decide
  have h2 : stationCertFile ≠ stationKeyFile := by decide
  have h3 : stationCertFile ≠ caChainFile := by decide
  have h4 : stationKeyFile ≠ identityFile := by decide
  have h5 : caChainFile ≠ identityFile := by decide
  have h6 : caChainFile ≠ stationKeyFile := by decide
  refine ⟨?_, ?_, ?_⟩
  · simp [readIn, get_staged, h1, h2, h3]
  · simp [readIn, get_staged, h4]
  · simp [readIn, get_staged, h5, h6]

theorem runs_buildInner_staged {s : Disk} {opts : SaveOptions}
    (hs : s.get .credentials = some (staged opts)) :
    Runs Steady (buildInner anyTls) s (.ok (clientOf opts)) s := by
  obtain ⟨hcert, hkey, hca⟩ := readIn_staged opts
  rw [buildInner, runs_bind_of_look fun _ _ => runs_readFile, hs, hcert]
  dsimp only
  rw [runs_bind_of_look fun _ _ => runs_readFile, hs, hkey]
  dsimp only
  rw [runs_bind_of_look fun _ _ => runs_readFile, hs, hca]
  exact ⟨rfl, rfl⟩

/-- The identity every enrollment of these examples loads as, its certificate expiring at the epoch. -/
def firstIdentity : StationIdentity where
  stationId := 1
  enrolledAt := .ofSecs 0 DateTime.epoch_inRange
  perchpubUrl := "https://perchpub"
  certNotAfter := .ofSecs 0 DateTime.epoch_inRange

/-- `serve` started after a first enrollment. -/
def firstServing : Serving := ⟨enrolled "a", firstIdentity, clientOf (enrollment "a")⟩

/-- The disk after a save over the first enrollment. -/
def savedOver (opts : SaveOptions) : Disk :=
  (swappedDisk (enrolled "a") opts (staged (enrollment "a"))).del .rotated

/-- The same key under a renewed certificate. -/
def renewal : SaveOptions := { enrollment "a" with stationCertPem := .text "renewed" }

def renewedDisk : Disk := savedOver renewal

/-- The same key under another certificate that expires with the first. -/
def reissue : SaveOptions := { enrollment "a" with stationCertPem := .text "reissued" }

/-- An hour after the epoch. -/
def anHour : DateTime := .ofSecs 3600 ⟨by decide, by decide⟩

theorem firstServing_credentials :
    firstServing.disk.get .credentials = some (staged (enrollment "a")) := by
  rw [firstServing, get_enrolled, if_pos rfl]

theorem savedOver_credentials (opts : SaveOptions) :
    (savedOver opts).get .credentials = some (staged opts) := by
  rw [savedOver, FileMap.get_del, if_neg (by decide), get_swappedDisk, if_pos rfl]

/-- A SIGHUP takes up the credentials saved over the first. -/
theorem runs_reload_savedOver (client : MtlsClient) (opts : SaveOptions) :
    Runs Steady (reload anyTls client) (savedOver opts) (.ok (), clientOf opts) (savedOver opts) :=
  (runs_bind _ _ _ _ _).mpr
    ⟨_, _, runs_buildInner_staged (savedOver_credentials opts), rfl, rfl⟩

theorem boot_firstServing : Boot Pki.dated anyTls firstServing := by
  have hid : loaded Pki.dated (firstServing.disk.get .credentials) = .ok firstIdentity := by
    rw [firstServing_credentials]
    have hfile : readIn (some (staged (enrollment "a"))) identityFile =
        .ok (.identity ⟨1, .ofSecs 0 ⟨by decide, by decide⟩, "https://perchpub"⟩) := by
      simp [readIn, get_staged, enrollment]
    unfold loaded
    rw [hfile, (readIn_staged _).1]
    rfl
  exact ⟨runs_load.mpr ⟨hid.symm, rfl⟩, runs_buildInner_staged firstServing_credentials⟩

/-- The first certificate is replaced by one that expires with it, a SIGHUP takes that up and an
iteration halts for it: the gate agrees with the client after each of the three. -/
theorem expiry_gate_agrees_reissued : ∃ tr,
    tr.map Prod.fst = [.saved reissue, .sighup (.ok ()), .iterated anHour true] ∧
    Exec (ServeStep Pki.dated anyTls) firstServing tr
      ⟨savedOver reissue, firstIdentity, clientOf reissue⟩ ∧
    ∀ a ev u, Exec.Takes (ServeStep Pki.dated anyTls) firstServing tr a ev u →
      GateAgrees Pki.dated anyTls u := by
  have hsave : Runs Steady (save Pki.dated reissue) firstServing.disk _ (savedOver reissue) :=
    runs_save_present firstServing_credentials ⟨rfl, rfl⟩
  have hrun₁ : Exec (ServeStep Pki.dated anyTls) firstServing _ _ := Exec.nil.snoc (.save hsave)
  have hrun₂ := hrun₁.snoc (.sighup (runs_reload_savedOver _ reissue))
  have hrun₃ := hrun₂.snoc (show ServeStep Pki.dated anyTls _ (.iterated anHour _) _ from .iterate)
  have hgate : firstIdentity.certIsExpired anHour = true := by decide
  refine ⟨_, ?_, hrun₃, (expiry_gate_agrees_iff boot_firstServing hrun₃).2.mp fun a ev u htk => ?_⟩
  · simp [firstServing, hgate]
  rcases Exec.takes_snoc hrun₂ htk with htk | ⟨rfl, rfl, rfl⟩
  · rcases Exec.takes_snoc hrun₁ htk with htk | ⟨rfl, rfl, rfl⟩
    · rcases Exec.takes_snoc .nil htk with ⟨tr₁, tr₂, htr, -⟩ | ⟨rfl, rfl, rfl⟩
      · simp at htr
      · trivial
    · -- the reload: the certificate it finds on disk
      have hcert := (readIn_staged reissue).1
      rw [← savedOver_credentials] at hcert
      exact ⟨_, hcert, rfl⟩
  · trivial

/-- After a renewal and a SIGHUP the client presents a certificate that runs another day, and the
delivery loop halts for the first one. -/
theorem renewed_certificate_keeps_halting :
    ∃ st, Boot Pki.dated anyTls firstServing ∧
      Exec (ServeStep Pki.dated anyTls) firstServing [(.saved renewal, ⟨renewedDisk, firstIdentity,
        clientOf (enrollment "a")⟩), (.sighup (.ok ()), st)] st ∧
      ServeStep Pki.dated anyTls st (.iterated anHour true) st ∧
      ¬ CertExpired Pki.dated st.client.leaf anHour := by
  have hsave : Runs Steady (save Pki.dated renewal) firstServing.disk _ renewedDisk :=
    runs_save_present firstServing_credentials ⟨rfl, rfl⟩
  have hreload : Runs Steady (reload anyTls (clientOf (enrollment "a"))) renewedDisk
      (.ok (), clientOf renewal) renewedDisk := runs_reload_savedOver _ renewal
  refine ⟨⟨renewedDisk, firstIdentity, clientOf renewal⟩, boot_firstServing,
    (Exec.nil.snoc (.save hsave)).snoc (.sighup hreload), ?_, ?_⟩
  · have hgate : firstIdentity.certIsExpired anHour = true := by decide
    rw [← hgate]
    exact .iterate
  · rintro ⟨notAfter, hparse, hle⟩
    have hlater : notAfter = .ofSecs 86400 ⟨by decide, by decide⟩ :=
      (Except.ok.inj hparse).symm
    rw [hlater] at hle
    exact absurd hle (by decide)

end Identity

end Perchstation
