import Perchstation.Enrollment.Confirm
import Perchstation.Identity.Store

/-!
# CSR — the station's identity and its certificate request (`enrollment/csr.rs`)

The identity is a word derived from the public key; it is the only subject alternative name of the
request and its common name.  Key generation, SHA-256, and the encoding and the signature of a request
are the parameter `Rcgen`.
-/

namespace Perchstation

/-- A SHA-256 digest. -/
structure Digest where
  bytes : List UInt8
  length_bytes : bytes.length = 32

/-- `SanType`, as far as it is used. -/
inductive SanType
  | dnsName (name : String)
  | ipAddress (octets : List UInt8)
  deriving DecidableEq

/-- `DnType`, as far as it is used. -/
inductive DnType
  | commonName
  | other (oid : List ℕ)
  deriving DecidableEq

/-- `CertificateParams`: the fields that are set, and the others as they are built. -/
structure CertificateParams (Others : Type) where
  subjectAltNames : List SanType
  distinguishedName : List (DnType × String)
  others : Others

inductive CsrError
  | keygen (message : String)
  | build (message : String)
  | serialise (message : String)

/-- What `rcgen` and `ring` do for an enrollment. -/
structure Rcgen (x : X509) where
  /-- `ring::digest::digest(&SHA256, _)` of the DER bytes of a public key. -/
  sha256 : x.PublicKey → Digest
  /-- The other fields of `CertificateParams`. -/
  Others : Type
  /-- `CertificateParams::new`. -/
  newParams : List String → Except String (CertificateParams Others)
  /-- `Ia5String::try_from`. -/
  ia5String : String → Except String Unit
  /-- A signed request. -/
  Csr : Type
  serializeRequest : CertificateParams Others → x.KeyPair → Except String Csr
  pem : Csr → Except String String
  /-- `KeyPair::from_pem`. -/
  fromPem : CredBlob → Except String x.KeyPair
  /-- `KeyPair::serialize_pem`. -/
  serializePem : x.KeyPair → String

/-- `EnrollmentCsr`. -/
structure EnrollmentCsr (x : X509) where
  keypair : x.KeyPair
  csrPem : String

namespace Csr

section Definitions

variable {x : X509} (rcgen : Rcgen x)

/-- `{byte:02x}`. -/
def hexByte (byte : UInt8) : List Char :=
  [Nat.digitChar (byte.toNat / 16), Nat.digitChar (byte.toNat % 16)]

def stationPrefix : List Char := "station-".toList

/-- `station_identity`, as a list of characters. -/
def identityText (keypair : x.KeyPair) : List Char :=
  stationPrefix ++ ((rcgen.sha256 (x.publicKeyDer keypair)).bytes.take 8).flatMap hexByte

def stationIdentity (keypair : x.KeyPair) : String := String.ofList (identityText rcgen keypair)

/-- What is asked of the certificate authority for the key. -/
def requestParams (others : rcgen.Others) (keypair : x.KeyPair) : CertificateParams rcgen.Others where
  subjectAltNames := [.dnsName (stationIdentity rcgen keypair)]
  distinguishedName := [(.commonName, stationIdentity rcgen keypair)]
  others := others

def buildFromKeypair (keypair : x.KeyPair) : Except CsrError (EnrollmentCsr x) :=
  let identity := stationIdentity rcgen keypair
  match rcgen.newParams [identity] with
  | .error err => .error (.build err)
  | .ok params =>
    match rcgen.ia5String identity with
    | .error err => .error (.build ("identity is not a valid dNSName: " ++ err))
    | .ok () =>
      let params := { params with
        subjectAltNames := [.dnsName identity], distinguishedName := [(.commonName, identity)] }
      match rcgen.serializeRequest params keypair with
      | .error err => .error (.build err)
      | .ok csr =>
        match rcgen.pem csr with
        | .error err => .error (.serialise err)
        | .ok csrPem => .ok ⟨keypair, csrPem⟩

/-- `generate`, with the answer of `KeyPair::generate_for`. -/
def generate (generated : Except String x.KeyPair) : Except CsrError (EnrollmentCsr x) :=
  match generated with
  | .error err => .error (.keygen err)
  | .ok keypair => buildFromKeypair rcgen keypair

end Definitions

/-! ## The identity of a station -/

section Results

variable {x : X509} {rcgen : Rcgen x} {k k' : x.KeyPair} {csr : EnrollmentCsr x}

/-- A label of a host name: lower-case letters, digits and inner hyphens, at most 63 of them. -/
structure DnsLabel (label : List Char) : Prop where
  ne_nil : label ≠ []
  length_le : label.length ≤ 63
  chars : ∀ c ∈ label, c.isLower ∨ c.isDigit ∨ c = '-'
  first : label.head? ≠ some '-'
  last : label.getLast? ≠ some '-'

theorem digitChar_of_lt {n : ℕ} (h : n < 16) :
    (Nat.digitChar n).isLower ∨ (Nat.digitChar n).isDigit := by
  have hall : ∀ i : Fin 16, (Nat.digitChar i).isLower ∨ (Nat.digitChar i).isDigit := by decide
  exact hall ⟨n, h⟩

theorem digitChar_inj {m n : ℕ} (hm : m < 16) (hn : n < 16) (h : Nat.digitChar m = Nat.digitChar n) :
    m = n := by
  have hall : ∀ i j : Fin 16, Nat.digitChar i = Nat.digitChar j → i = j := by decide
  exact Fin.mk.inj_iff.mp (hall ⟨m, hm⟩ ⟨n, hn⟩ h)

theorem hexByte_injective : Function.Injective hexByte := by
  intro a b h
  have ha := a.toNat_lt
  have hb := b.toNat_lt
  obtain ⟨hhigh, hrest⟩ := List.cons.inj h
  have hlow := (List.cons.inj hrest).1
  have h₁ : a.toNat / 16 = b.toNat / 16 := digitChar_inj (by omega) (by omega) hhigh
  have h₂ : a.toNat % 16 = b.toNat % 16 := digitChar_inj (by omega) (by omega) hlow
  apply UInt8.toNat_inj.mp
  omega

/-- Two bytes' digits after each other can be told apart. -/
theorem flatMap_hexByte_injective : Function.Injective (List.flatMap hexByte) := by
  intro l
  induction l with
  | nil =>
    intro l' h
    cases l' with
    | nil => rfl
    | cons b l' => simp [hexByte] at h
  | cons a l ih =>
    intro l' h
    cases l' with
    | nil => simp [hexByte] at h
    | cons b l' =>
      have hsplit : hexByte a = hexByte b ∧ l.flatMap hexByte = l'.flatMap hexByte :=
        List.append_inj h rfl
      rw [hexByte_injective hsplit.1, ih hsplit.2]

theorem length_flatMap_hexByte (l : List UInt8) : (l.flatMap hexByte).length = 2 * l.length := by
  induction l with
  | nil => rfl
  | cons b l ih =>
    rw [List.flatMap_cons, List.length_append, ih, List.length_cons]
    show 2 + 2 * l.length = _
    omega

theorem mem_hexByte {c : Char} {b : UInt8} (h : c ∈ hexByte b) : c.isLower ∨ c.isDigit := by
  have hb := b.toNat_lt
  rcases List.mem_cons.mp h with rfl | h
  · exact digitChar_of_lt (by omega)
  · obtain rfl := List.mem_singleton.mp h
    exact digitChar_of_lt (by omega)

theorem stationPrefix_eq : stationPrefix = ['s', 't', 'a', 't', 'i', 'o', 'n', '-'] := by decide

theorem length_identityText (k : x.KeyPair) : (identityText rcgen k).length = 24 := by
  have hlen := (rcgen.sha256 (x.publicKeyDer k)).length_bytes
  rw [identityText, stationPrefix_eq, List.length_append, length_flatMap_hexByte, List.length_take, hlen]
  decide

/-- For every key, the identity is a host name. -/
theorem dnsLabel_identityText (k : x.KeyPair) : DnsLabel (identityText rcgen k) := by
  have hlen : (identityText rcgen k).length = 24 := length_identityText k
  have hhex : ∀ c ∈ ((rcgen.sha256 (x.publicKeyDer k)).bytes.take 8).flatMap hexByte,
      c.isLower ∨ c.isDigit := by
    intro c hc
    obtain ⟨b, -, hb⟩ := List.mem_flatMap.mp hc
    exact mem_hexByte hb
  refine ⟨?_, by omega, ?_, ?_, ?_⟩
  · intro hnil
    rw [hnil] at hlen
    cases hlen
  · intro c hc
    have hword : (stationPrefix.all fun c => c.isLower || c.isDigit || c == '-') = true := rfl
    rcases List.mem_append.mp hc with hc | hc
    · have hletter := List.all_eq_true.mp hword c hc
      simpa [or_assoc] using hletter
    · exact (hhex c hc).imp_right Or.inl
  · rw [identityText, stationPrefix_eq, List.cons_append, List.head?_cons]
    decide
  · -- the last character is a digit of the eighth byte
    intro hlast
    have hne : ((rcgen.sha256 (x.publicKeyDer k)).bytes.take 8).flatMap hexByte ≠ [] := by
      intro hnil
      have hzero := length_flatMap_hexByte ((rcgen.sha256 (x.publicKeyDer k)).bytes.take 8)
      rw [hnil, List.length_take, (rcgen.sha256 (x.publicKeyDer k)).length_bytes] at hzero
      simp at hzero
    rw [identityText, List.getLast?_append_of_ne_nil _ hne] at hlast
    have hmem := hhex '-' (List.mem_of_getLast? hlast)
    exact absurd hmem (by decide)

/-- Two keys have the same identity exactly if the digests agree in the first eight bytes. -/
theorem stationIdentity_eq_iff : stationIdentity rcgen k = stationIdentity rcgen k' ↔
    (rcgen.sha256 (x.publicKeyDer k)).bytes.take 8 =
      (rcgen.sha256 (x.publicKeyDer k')).bytes.take 8 := by
  constructor
  · intro h
    have htext : identityText rcgen k = identityText rcgen k' := String.ofList_injective h
    exact flatMap_hexByte_injective (List.append_cancel_left htext)
  · intro h
    rw [stationIdentity, stationIdentity, identityText, identityText, h]

/-- What a request asks for. -/
theorem buildFromKeypair_ok (h : buildFromKeypair rcgen k = .ok csr) : csr.keypair = k ∧
    ∃ others request, rcgen.serializeRequest (requestParams rcgen others k) k = .ok request ∧
      rcgen.pem request = .ok csr.csrPem := by
  unfold buildFromKeypair at h
  dsimp only at h
  split at h
  · cases h
  rename_i params _
  split at h
  · cases h
  split at h
  · cases h
  rename_i request hrequest
  split at h
  · cases h
  rename_i csrPem hpem
  cases h
  exact ⟨rfl, params.others, request, hrequest, hpem⟩

/-- Every request carries one name, the host name of the key it is signed with: as its common name and as
its only alternative name.  Keys are told apart by it as far as eight bytes of the digest do. -/
theorem requests_name_the_key (rcgen : Rcgen x) (k k' : x.KeyPair) :
    DnsLabel (identityText rcgen k) ∧
    (∀ csr, buildFromKeypair rcgen k = .ok csr → csr.keypair = k ∧
      ∃ others request, rcgen.serializeRequest (requestParams rcgen others k) k = .ok request ∧
        rcgen.pem request = .ok csr.csrPem) ∧
    (stationIdentity rcgen k = stationIdentity rcgen k' ↔
      (rcgen.sha256 (x.publicKeyDer k)).bytes.take 8 =
        (rcgen.sha256 (x.publicKeyDer k')).bytes.take 8) :=
  ⟨dnsLabel_identityText k, fun _ h => buildFromKeypair_ok h, stationIdentity_eq_iff⟩

end Results

end Csr

end Perchstation
