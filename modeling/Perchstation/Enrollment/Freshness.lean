import Perchstation.Enrollment.Confirm
import Perchstation.Identity.Expiry

/-!
# Freshness — the expiry of a certificate that was just accepted

`validate_chain` and `parse_cert_not_after` read the same `not_after` with the same parser and the same
conversion.  The first still accepts the instant of `not_after`, and `cert_is_expired` already counts it
as past.
-/

namespace Perchstation

open Resumption Identity Confirm

/-- `parse_x509_pem` and `parse_x509` of `parse_cert_not_after`. -/
def X509.readNotAfter (x : X509) (text : String) : Except CertFault ℤ :=
  match x.parsePem text with
  | .error message => .error (.pem message)
  | .ok pem =>
    match x.parseCert pem with
    | .error message => .error (.x509 message)
    | .ok cert => .ok (x.notAfter cert)

/-- The parsers of `identity.rs`, with certificate texts read by the parser of `confirm.rs`: both are
`x509_parser`. -/
def Pki.over (pki : Pki) (x : X509) : Pki :=
  { pki with
    notAfter := fun
      | .text text => x.readNotAfter text
      | pem => pki.notAfter pem }

/-- `now` is the very instant of the leaf's `not_after`. -/
def AtNotAfter (x : X509) (certPem : String) (now : DateTime) : Prop :=
  ∃ leafPem leaf, x.parsePem certPem = .ok leafPem ∧ x.parseCert leafPem = .ok leaf ∧
    now.1 = x.notAfter leaf * nanosPerSec

variable {x : X509} {pki : Pki} {certPem pinnedCaPem responseCaPem : String} {now : DateTime}
  {opts : SaveOptions} {s t : Disk} {identity : StationIdentity}

/-! ## Both conversions -/

theorem val_of_timestampOpt {timestamp : ℤ} {instant : DateTime}
    (h : timestampOpt timestamp = some instant) : instant.1 = timestamp * nanosPerSec := by
  unfold timestampOpt at h
  split_ifs at h
  obtain rfl := Option.some.inj h
  rfl

/-- A window that is accepted ends at a representable instant, and not before `now`. -/
theorem le_notAfter_of_validateWindow {leaf : x.Cert} (h : validateWindow x leaf now = .ok ()) :
    ∃ notAfter, timestampOpt (x.notAfter leaf) = some notAfter ∧ now ≤ notAfter := by
  unfold validateWindow at h
  split at h
  · cases h
  split at h
  · cases h
  rename_i notAfter hafter
  split_ifs at h with hbefore hpast
  exact ⟨notAfter, hafter, not_lt.mp hpast⟩

/-- An accepted certificate parses again for the identity, to an instant no earlier than `now`. -/
theorem parseCertNotAfter_of_accepted (pki : Pki) (path : CredPath)
    (haccept : validateChain x certPem pinnedCaPem responseCaPem now = .ok ()) :
    ∃ notAfter, parseCertNotAfter (pki.over x) path (.text certPem) = .ok notAfter ∧ now ≤ notAfter ∧
      (AtNotAfter x certPem now ↔ notAfter = now) := by
  obtain ⟨pinned, response, leafPem, leaf, -, -, -, hpem, hleaf, hwindow, -⟩ :=
    validateChain_eq_ok_iff.mp haccept
  obtain ⟨notAfter, hafter, hle⟩ := le_notAfter_of_validateWindow hwindow
  have hread : (pki.over x).notAfter (.text certPem) = .ok (x.notAfter leaf) := by
    show x.readNotAfter certPem = _
    simp only [X509.readNotAfter, hpem, hleaf]
  have hval := val_of_timestampOpt hafter
  refine ⟨notAfter, by simp only [parseCertNotAfter, hread, hafter], hle, ?_⟩
  constructor
  · rintro ⟨leafPem', leaf', hpem', hleaf', hnow⟩
    obtain rfl : leafPem = leafPem' := Except.ok.inj (hpem.symm.trans hpem')
    obtain rfl : leaf = leaf' := Except.ok.inj (hleaf.symm.trans hleaf')
    exact Subtype.ext (hval.trans hnow.symm)
  · rintro rfl
    exact ⟨leafPem, leaf, hpem, hleaf, hval⟩

/-! ## The identity that is saved -/

theorem readIn_of_readFile {d : CredDir} {name : String} {b : CredBlob}
    (h : Runs Loose (readFile d name) s (.ok b) t) : readIn (s.get d) name = .ok b ∧ t = s := by
  rw [readFile, askCred, runs_request] at h
  rcases h with hsteady | ⟨⟨e, he⟩, -⟩
  · have hrun : Runs Steady (readFile d name) s (.ok b) t := runs_request.mpr hsteady
    obtain ⟨hread, rfl⟩ := runs_readFile.mp hrun
    exact ⟨hread.symm, rfl⟩
  · cases he

theorem readIn_of_readToString {d : CredDir} {name : String} {b : CredBlob}
    (h : Runs Loose (readToString d name) s (.ok b) t) :
    asText (readIn (s.get d) name) = .ok b ∧ t = s := by
  obtain ⟨v, u, hread, hend⟩ := h.bind_ok fun _ => ⟨_, rfl⟩
  obtain ⟨hin, rfl⟩ := readIn_of_readFile hread
  rw [hin]
  cases v with
  | binary data => cases hend.1
  | text text => exact ⟨hend.1.symm, hend.2⟩
  | identity file => exact ⟨hend.1.symm, hend.2⟩

/-- What `load` returns is what the credentials hold, whatever may fail. -/
theorem loaded_of_load (h : Runs Loose (load pki) s (.ok identity) t) :
    loaded pki (s.get .credentials) = .ok identity := by
  obtain ⟨contents, u, htext, hrest⟩ := h.bind_ok fun _ => ⟨_, rfl⟩
  obtain ⟨hin, rfl⟩ := readIn_of_readToString htext
  unfold loaded
  rw [hin]
  dsimp only at hrest ⊢
  cases hfile : decodeIdentity contents with
  | none =>
    rw [hfile] at hrest
    cases hrest.1
  | some file =>
    rw [hfile] at hrest
    obtain ⟨pem, w, hread, hend⟩ := hrest.bind_ok fun _ => ⟨_, rfl⟩
    obtain ⟨hpem, rfl⟩ := readIn_of_readFile hread
    rw [hpem]
    dsimp only at hend ⊢
    cases hparse : parseCertNotAfter pki (.file .credentials stationCertFile) pem with
    | error err =>
      rw [hparse] at hend
      cases hend.1
    | ok certNotAfter =>
      rw [hparse] at hend
      exact hend.1.symm

/-- The identity that a save returns is that of the certificate it was given. -/
theorem certNotAfter_of_save (h : Runs Loose (save pki opts) s (.ok identity) t) :
    parseCertNotAfter pki (.file .credentials stationCertFile) opts.stationCertPem =
      .ok identity.certNotAfter := by
  obtain ⟨existed, u, hinstall, hsettle⟩ := h.bind_ok fun _ => ⟨_, rfl⟩
  have hu := credentials_of_install hinstall
  obtain ⟨⟨⟩, v, hsync, hrest⟩ := hsettle.bind_ok fun _ => ⟨_, rfl⟩
  obtain ⟨⟨⟩, w, hclean, hload⟩ := (runs_bind _ _ _ _ _).mp hrest
  have hv : v.get .credentials = u.get .credentials :=
    get_of_loose (runs_request.mp hsync) (by simp [CredReq.Touches])
  have hw := credentials_of_runs (within_cleanup existed) hclean
  have hloaded := loaded_of_load hload
  rw [hw, hv, hu] at hloaded
  obtain ⟨pem, hpem, hparse⟩ := certNotAfter_of_loaded hloaded
  rw [(readIn_staged opts).1] at hpem
  rw [Except.ok.inj hpem, hparse]

/-- A certificate that `validate_chain` accepts at `now` can be saved, and the saved identity counts as
not expired at `now` exactly if `now` is not the very instant of the certificate's `not_after`. -/
theorem accepted_not_expired_iff
    (haccept : validateChain x certPem pinnedCaPem responseCaPem now = .ok ())
    (hopts : opts.stationCertPem = .text certPem) : CertParses (pki.over x) opts ∧
      ∀ s identity t, Runs Loose (save (pki.over x) opts) s (.ok identity) t →
        (identity.certIsExpired now = false ↔ ¬ AtNotAfter x certPem now) := by
  obtain ⟨notAfter, hparse, hle, hat⟩ :=
    parseCertNotAfter_of_accepted pki (.file .credentials stationCertFile) haccept
  refine ⟨⟨notAfter, by rw [hopts, hparse]⟩, ?_⟩
  intro s identity t hsave
  have hsaved := certNotAfter_of_save hsave
  rw [hopts, hparse] at hsaved
  obtain rfl := Except.ok.inj hsaved
  rw [hat, StationIdentity.certIsExpired, decide_eq_false_iff_not, not_le]
  constructor
  · exact fun hlt heq => absurd heq hlt.ne'
  · exact fun hne => lt_of_le_of_ne hle (Ne.symm hne)

/-! ## A leaf of an hour -/

/-- The station's parsers over the numbered certificates. -/
def Pki.numbered : Pki := Pki.plain.over X509.numbered

theorem save_numbered : ∃ identity t,
    Runs Steady (save Pki.numbered (enrollment "a")) .empty (.ok identity) t ∧
      identity.certNotAfter = anHour := by
  have hparses : CertParses Pki.numbered (enrollment "a") := ⟨anHour, rfl⟩
  have hrun : Runs Steady (save Pki.numbered (enrollment "a")) .empty _ _ :=
    runs_save_absent (FileMap.get_empty _)
  obtain ⟨identity, hid⟩ := loaded_staged_iff.mpr hparses
  rw [hid] at hrun
  have hparse := certNotAfter_of_save (loose_of_steady hrun)
  exact ⟨identity, _, hrun, (Except.ok.inj hparse).symm⟩

theorem accepted_not_expired_at_epoch : ∃ identity t,
    Runs Loose (save Pki.numbered (enrollment "a")) .empty (.ok identity) t ∧
      identity.certIsExpired (.ofSecs 0 (by decide)) = false := by
  have haccept : validateChain X509.numbered "leaf" "authority" "authority"
      (.ofSecs 0 (by decide)) = .ok () := rfl
  have hiff := (@accepted_not_expired_iff X509.numbered Pki.plain _ _ _ _ (enrollment "a") haccept
    rfl).2
  obtain ⟨identity, t, hrun, -⟩ := save_numbered
  refine ⟨identity, t, loose_of_steady hrun, (hiff _ _ _ (loose_of_steady hrun)).mpr ?_⟩
  rintro ⟨leafPem, leaf, -, -, hnow⟩
  have hne : (0 : ℤ) * nanosPerSec ≠ 3600 * nanosPerSec := by decide
  exact hne hnow

/-- The leaf is accepted at the instant of its `not_after`, and the identity saved from it counts as
expired at that instant. -/
theorem accepted_and_expired :
    validateChain X509.numbered "leaf" "authority" "authority" anHour = .ok () ∧
      ∃ identity t, Runs Steady (save Pki.numbered (enrollment "a")) .empty (.ok identity) t ∧
        identity.certIsExpired anHour = true := by
  obtain ⟨identity, t, hrun, hafter⟩ := save_numbered
  refine ⟨rfl, identity, t, hrun, ?_⟩
  rw [StationIdentity.certIsExpired, hafter, decide_eq_true_iff]

end Perchstation
