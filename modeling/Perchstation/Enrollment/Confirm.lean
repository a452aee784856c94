import Perchstation.Identity.Store

/-!
# Confirm — the checks on an enrollment response (`enrollment/confirm.rs`)

The leaf is verified against the pinned certificates, but the chain of the response is what is
returned and persisted.  Decoding PEM, parsing certificates and verifying signatures is third-party
code and a parameter (`X509`).
-/

namespace Perchstation

/-- `EnrollmentResponse`. -/
structure EnrollmentResponse where
  success : Bool
  reason : String
  certificatePem : Option String
  caChainPem : Option String
  stationId : Option Uuid

/-- `x509_parser`'s key usage extension, as far as it is looked at. -/
structure KeyUsage where
  keyCertSign : Bool

/-- The DER bytes of a certificate. -/
abbrev Der : Type := List UInt8

/-- The decoders and verifiers of certificates. -/
structure X509 where
  Cert : Type
  /-- The DER bytes of a `SubjectPublicKeyInfo`. -/
  PublicKey : Type
  [decEqPublicKey : DecidableEq PublicKey]
  KeyPair : Type
  /-- `KeyPair::public_key_der`. -/
  publicKeyDer : KeyPair → PublicKey
  /-- `rustls_pemfile::certs`, item by item. -/
  certs : String → List (Except String Der)
  /-- `parse_x509_pem`: the contents of the first PEM block. -/
  parsePem : String → Except String Der
  /-- `parse_x509_certificate`. -/
  parseCert : Der → Except String Cert
  publicKey : Cert → PublicKey
  /-- The bounds of the validity, in seconds after the epoch. -/
  notBefore : Cert → ℤ
  notAfter : Cert → ℤ
  isCa : Cert → Bool
  keyUsage : Cert → Except String (Option KeyUsage)
  verifySignature : Cert → PublicKey → Except String Unit

instance (x : X509) : DecidableEq x.PublicKey := x.decEqPublicKey

/-- The errors of `ConfirmError` that checking a response can give. -/
inductive ConfirmError
  | caChainEmpty
  | refused (reason : String)
  | missingField (field : String)
  | certPem (message : String)
  | keyMismatch
  | chainMismatch (message : String)
  | certNotYetValid (notBefore : DateTime)
  | certExpired (notAfter : DateTime)
  deriving DecidableEq

namespace Confirm

/-- `ConfirmedEnrollment`. -/
structure ConfirmedEnrollment where
  stationId : Uuid
  certificatePem : String
  caChainPem : String

variable (x : X509)

/-- `parse_cert_ders`: the certificates of a PEM text, or the first error. -/
def parseCertDers (pem : String) : Except String (List Der) := (x.certs pem).mapM id

/-- `pem.parse_x509()` after `parse_x509_pem`. -/
def validateCertAgainstKey (certPem : String) (keypair : x.KeyPair) : Except ConfirmError Unit :=
  match x.parsePem certPem with
  | .error err => .error (.certPem err)
  | .ok pem =>
    match x.parseCert pem with
    | .error err => .error (.certPem err)
    | .ok cert =>
      if x.publicKey cert = x.publicKeyDer keypair then .ok () else .error .keyMismatch

/-- cA=TRUE, and a key usage that permits signing certificates. -/
def usableCa (ca : x.Cert) : Bool :=
  x.isCa ca && match x.keyUsage ca with
    | .ok (some usage) => usage.keyCertSign
    | _ => false

/-- The loop over the pinned certificates, with the last error. -/
def verifyLeaf (leaf : x.Cert) : Option String → List Der → Except ConfirmError Unit
  | lastErr, [] => .error (.chainMismatch (lastErr.getD "no pinned CA verified the leaf signature"))
  | _, caDer :: rest =>
    match x.parseCert caDer with
    | .error err => verifyLeaf leaf (some ("parse pinned CA: " ++ err)) rest
    | .ok ca =>
      if usableCa x ca then
        match x.verifySignature leaf (x.publicKey ca) with
        | .ok () => .ok ()
        | .error err => verifyLeaf leaf (some ("verify against pinned CA: " ++ err)) rest
      else
        verifyLeaf leaf
          (some "pinned cert is not a usable CA (needs cA=TRUE + keyCertSign)") rest

/-- The window check of `validate_chain`. -/
def validateWindow (leaf : x.Cert) (now : DateTime) : Except ConfirmError Unit :=
  match Identity.timestampOpt (x.notBefore leaf) with
  | none => .error (.chainMismatch "leaf not_before is not a representable UTC time")
  | some notBefore =>
    match Identity.timestampOpt (x.notAfter leaf) with
    | none => .error (.chainMismatch "leaf not_after is not a representable UTC time")
    | some notAfter =>
      if now < notBefore then .error (.certNotYetValid notBefore)
      else if notAfter < now then .error (.certExpired notAfter)
      else .ok ()

def validateChain (certPem pinnedCaPem responseCaPem : String) (now : DateTime) :
    Except ConfirmError Unit :=
  match parseCertDers x pinnedCaPem with
  | .error err => .error (.chainMismatch ("parse pinned CA: " ++ err))
  | .ok pinnedDers =>
    match parseCertDers x responseCaPem with
    | .error err => .error (.chainMismatch ("parse response CA: " ++ err))
    | .ok responseDers =>
      if pinnedDers = [] then .error .caChainEmpty
      else if responseDers.all fun der => pinnedDers.any (· = der) then
        match x.parsePem certPem with
        | .error err => .error (.chainMismatch ("parse leaf: " ++ err))
        | .ok leafPem =>
          match x.parseCert leafPem with
          | .error err => .error (.chainMismatch ("parse leaf x509: " ++ err))
          | .ok leaf =>
            match validateWindow x leaf now with
            | .error err => .error err
            | .ok () => verifyLeaf x leaf none pinnedDers
      else
        .error (.chainMismatch "response ca_chain contains a cert not in the pinned QR chain")

/-- `validate_response`. -/
def validateResponse (response : EnrollmentResponse) (caChainPem : String) (keypair : x.KeyPair)
    (now : DateTime) : Except ConfirmError ConfirmedEnrollment :=
  if !response.success then .error (.refused response.reason)
  else match response.certificatePem with
    | none => .error (.missingField "certificate_pem")
    | some certificatePem =>
      match response.caChainPem with
      | none => .error (.missingField "ca_chain_pem")
      | some caChainResponse =>
        match response.stationId with
        | none => .error (.missingField "station_id")
        | some stationId =>
          match validateCertAgainstKey x certificatePem keypair with
          | .error err => .error err
          | .ok () =>
            match validateChain x certificatePem caChainPem caChainResponse now with
            | .error err => .error err
            | .ok () => .ok ⟨stationId, certificatePem, caChainResponse⟩

/-! ## What is accepted -/

variable {x}

/-- The certificate is a usable CA whose key verifies the leaf. -/
def Vouches (x : X509) (leaf : x.Cert) (der : Der) : Prop :=
  ∃ ca, x.parseCert der = .ok ca ∧ usableCa x ca = true ∧
    x.verifySignature leaf (x.publicKey ca) = .ok ()

theorem verifyLeaf_eq_ok_iff {leaf : x.Cert} {lastErr : Option String} {ders : List Der} :
    verifyLeaf x leaf lastErr ders = .ok () ↔ ∃ der ∈ ders, Vouches x leaf der := by
  induction ders generalizing lastErr with
  | nil => simp [verifyLeaf]
  | cons der rest ih =>
    rw [List.exists_mem_cons_iff]
    unfold verifyLeaf
    cases hparse : x.parseCert der with
    | error err => simp [ih, Vouches, hparse]
    | ok ca =>
      dsimp only
      by_cases husable : usableCa x ca = true
      · rw [if_pos husable]
        cases hverify : x.verifySignature leaf (x.publicKey ca) with
        | error err => simp [ih, Vouches, hparse, hverify]
        | ok _ => simp [Vouches, hparse, husable, hverify]
      · rw [if_neg husable]
        simp [ih, Vouches, hparse, husable]

/-- What `validate_chain` accepts: every certificate of the response is pinned, the leaf is in its
window, and some pinned certificate vouches for it. -/
theorem validateChain_eq_ok_iff {certPem pinnedCaPem responseCaPem : String} {now : DateTime} :
    validateChain x certPem pinnedCaPem responseCaPem now = .ok () ↔
      ∃ pinned response leafPem leaf, parseCertDers x pinnedCaPem = .ok pinned ∧
        parseCertDers x responseCaPem = .ok response ∧ response ⊆ pinned ∧
        x.parsePem certPem = .ok leafPem ∧ x.parseCert leafPem = .ok leaf ∧
        validateWindow x leaf now = .ok () ∧ ∃ der ∈ pinned, Vouches x leaf der := by
  unfold validateChain
  cases hpinned : parseCertDers x pinnedCaPem with
  | error err => simp
  | ok pinned =>
    cases hresponse : parseCertDers x responseCaPem with
    | error err => simp
    | ok response =>
      have hall : (response.all fun der => pinned.any (· = der)) = true ↔ response ⊆ pinned := by
        simp [List.all_eq_true, List.any_eq_true, List.subset_def]
      dsimp only
      by_cases hnil : pinned = []
      · simp [hnil]
      rw [if_neg hnil]
      by_cases hsub : response ⊆ pinned
      · rw [if_pos (hall.mpr hsub)]
        cases hpem : x.parsePem certPem with
        | error err => simp
        | ok leafPem =>
          cases hleaf : x.parseCert leafPem with
          | error err => simp [hleaf]
          | ok leaf =>
            dsimp only
            cases hwindow : validateWindow x leaf now with
            | error err => simp [hleaf, hwindow]
            | ok _ => simp [hsub, hleaf, hwindow, verifyLeaf_eq_ok_iff]
      · rw [if_neg (mt hall.mp hsub)]
        simp [hsub]

theorem validateResponse_eq_ok_iff {response : EnrollmentResponse} {caChainPem : String}
    {keypair : x.KeyPair} {now : DateTime} {confirmed : ConfirmedEnrollment} :
    validateResponse x response caChainPem keypair now = .ok confirmed ↔
      response.success = true ∧ response.certificatePem = some confirmed.certificatePem ∧
        response.caChainPem = some confirmed.caChainPem ∧
        response.stationId = some confirmed.stationId ∧
        validateCertAgainstKey x confirmed.certificatePem keypair = .ok () ∧
        validateChain x confirmed.certificatePem caChainPem confirmed.caChainPem now = .ok () := by
  unfold validateResponse
  cases response.success with
  | false => simp
  | true =>
    cases response.certificatePem with
    | none => simp
    | some certificatePem =>
      cases response.caChainPem with
      | none => simp
      | some caChainResponse =>
        cases response.stationId with
        | none => simp
        | some stationId =>
          obtain ⟨id, cert, chain⟩ := confirmed
          simp only [Bool.not_true, Bool.false_eq_true, if_false, Option.some.injEq, true_and]
          constructor
          · intro h
            cases hkey : validateCertAgainstKey x certificatePem keypair with
            | error err => simp [hkey] at h
            | ok _ =>
              cases hchain : validateChain x certificatePem caChainPem caChainResponse now with
              | error err => simp [hkey, hchain] at h
              | ok _ =>
                simp only [hkey, hchain, Except.ok.injEq, ConfirmedEnrollment.mk.injEq] at h
                obtain ⟨rfl, rfl, rfl⟩ := h
                exact ⟨rfl, rfl, rfl, hkey, hchain⟩
          · rintro ⟨rfl, rfl, rfl, hkey, hchain⟩
            simp [hkey, hchain]

/-! ## What the station can use -/

/-- The persisted chain holds a certificate, one of its certificates vouches for the persisted leaf,
and pinned itself it would pass the checks the pinned chain passed. -/
structure Usable (x : X509) (confirmed : ConfirmedEnrollment) (now : DateTime) : Prop where
  nonempty : ∃ der ders, parseCertDers x confirmed.caChainPem = .ok (der :: ders)
  vouched : ∃ ders leafPem leaf, parseCertDers x confirmed.caChainPem = .ok ders ∧
    x.parsePem confirmed.certificatePem = .ok leafPem ∧ x.parseCert leafPem = .ok leaf ∧
    ∃ der ∈ ders, Vouches x leaf der
  passes : validateChain x confirmed.certificatePem confirmed.caChainPem confirmed.caChainPem now =
    .ok ()

/-- A pinned certificate that vouches for the leaf of the response is among those it sends. -/
def SendsVoucher (x : X509) (response : EnrollmentResponse) (caChainPem : String) : Prop :=
  ∃ certPem chainPem leafPem leaf pinned sent, response.certificatePem = some certPem ∧
    response.caChainPem = some chainPem ∧ x.parsePem certPem = .ok leafPem ∧
    x.parseCert leafPem = .ok leaf ∧ parseCertDers x caChainPem = .ok pinned ∧
    parseCertDers x chainPem = .ok sent ∧ ∃ der ∈ pinned, Vouches x leaf der ∧ der ∈ sent

/-- An accepted response can be used exactly if it sends a pinned certificate that vouches for its
leaf. -/
theorem usable_iff {response : EnrollmentResponse} {caChainPem : String} {keypair : x.KeyPair}
    {now : DateTime} {confirmed : ConfirmedEnrollment}
    (h : validateResponse x response caChainPem keypair now = .ok confirmed) :
    Usable x confirmed now ↔ SendsVoucher x response caChainPem := by
  obtain ⟨-, hcert, hsent, -, -, hchain⟩ := validateResponse_eq_ok_iff.mp h
  obtain ⟨pinned, sent, leafPem, leaf, hpinned, hders, hsub, hpem, hleaf, hwindow, -⟩ :=
    validateChain_eq_ok_iff.mp hchain
  constructor
  · rintro ⟨-, ⟨ders, leafPem', leaf', hders', hpem', hleaf', der, hder, hvouches⟩, -⟩
    obtain rfl : sent = ders := Except.ok.inj (hders.symm.trans hders')
    exact ⟨_, _, leafPem', leaf', pinned, sent, hcert, hsent, hpem', hleaf', hpinned, hders, der,
      hsub hder, hvouches, hder⟩
  · rintro ⟨certPem, chainPem, leafPem', leaf', pinned', sent', hcert', hsent', hpem', hleaf', -,
      hders', der, -, hvouches, hder⟩
    obtain rfl : confirmed.certificatePem = certPem := Option.some.inj (hcert.symm.trans hcert')
    obtain rfl : confirmed.caChainPem = chainPem := Option.some.inj (hsent.symm.trans hsent')
    obtain rfl : sent = sent' := Except.ok.inj (hders.symm.trans hders')
    obtain rfl : leafPem = leafPem' := Except.ok.inj (hpem.symm.trans hpem')
    obtain rfl : leaf = leaf' := Except.ok.inj (hleaf.symm.trans hleaf')
    refine ⟨?_, ⟨sent, leafPem, leaf, hders, hpem, hleaf, der, hder, hvouches⟩, ?_⟩
    · cases sent with
      | nil => cases hder
      | cons first rest => exact ⟨first, rest, hders⟩
    · exact validateChain_eq_ok_iff.mpr ⟨sent, sent, leafPem, leaf, hders, hders,
        List.Subset.refl sent, hpem, hleaf, hwindow, der, hder, hvouches⟩

/-! ## One authority -/

/-- Certificates whose DER is one number: 1 is an authority, 2 a leaf it signed, both valid from the
epoch on for an hour.  A PEM text names the certificate it holds. -/
def X509.numbered : X509 where
  Cert := UInt8
  PublicKey := UInt8
  KeyPair := UInt8
  publicKeyDer := id
  certs := fun text => if text = "authority" then [.ok [1]] else []
  parsePem := fun text => if text = "leaf" then .ok [2] else .error "no PEM block"
  parseCert := fun der => match der with
    | [n] => .ok n
    | _ => .error "unexpected end"
  publicKey := id
  notBefore := fun _ => 0
  notAfter := fun _ => 3600
  isCa := fun n => n = 1
  keyUsage := fun _ => .ok (some ⟨true⟩)
  verifySignature := fun leaf key =>
    if leaf = 2 ∧ key = 1 then .ok () else .error "signature verification error"

/-- The response with the leaf and the chain text. -/
def leafWith (chain : String) : EnrollmentResponse :=
  ⟨true, "", some "leaf", some chain, some 0⟩

theorem usable_authority :
    Usable X509.numbered ⟨0, "leaf", "authority"⟩ (.ofSecs 0 (by decide)) :=
  (@usable_iff X509.numbered (leafWith "authority") "authority" (2 : UInt8) _ _ rfl).mpr
      ⟨"leaf", "authority", [2], (2 : UInt8), [[1]], [[1]], rfl, rfl, rfl, rfl, rfl, rfl, [1],
        by decide, ⟨(1 : UInt8), rfl, rfl, rfl⟩, by decide⟩

/-- A chain text without a certificate is accepted, and the station is left without an authority. -/
theorem accepted_not_usable :
    validateResponse X509.numbered (leafWith "") "authority" (2 : UInt8) (.ofSecs 0 (by decide)) =
        .ok ⟨0, "leaf", ""⟩ ∧
      parseCertDers X509.numbered "" = .ok [] ∧
      ¬ Usable X509.numbered ⟨0, "leaf", ""⟩ (.ofSecs 0 (by decide)) := by
  refine ⟨rfl, rfl, ?_⟩
  rintro ⟨⟨der, ders, hders⟩, -, -⟩
  cases hders

end Confirm

end Perchstation
