import Perchstation.Enrollment.Command
import Perchstation.Identity.Interrupted

/-!
# Outcome — what a run of `enroll` sends, saves and exits with

Wherever it is stopped, the command has posted one request at most three times, and the disk is as it
was unless the last answer was accepted.  The exit codes tell the outcomes apart: 75 that all three
POSTs failed transiently, 76 that the edge refused the station.
-/

namespace Perchstation

open Interleaving Resumption

namespace Command

variable {lib : EnrollLibrary} {inp : EnrollInputs lib} {t : Disk × History EdgeReq (EdgeRep lib.Detail)}
  {disk : Disk} {perchpubUrl : String} {material : EnrollmentSessionMaterial}
  {csr : EnrollmentCsr lib.x} {overwrite : Bool} {confirmed : Confirm.ConfirmedEnrollment}
  {hist : History EdgeReq (EdgeRep lib.Detail)}

/-- The POST of a prepared command. -/
def enrollPost (lib : EnrollLibrary) (perchpubUrl : String) (material : EnrollmentSessionMaterial)
    (csr : EnrollmentCsr lib.x) : EdgeReq :=
  .post (Confirm.confirmUrl lib.toEdgeLibrary perchpubUrl material.sessionId)
    ⟨String.ofList material.authToken, csr.csrPem⟩

/-- The answer `v` is one the command accepts as `confirmed`. -/
abbrev Accepted (inp : EnrollInputs lib) (material : EnrollmentSessionMaterial)
    (csr : EnrollmentCsr lib.x) (confirmed : Confirm.ConfirmedEnrollment)
    (v : Except String (EdgeResponse lib.Detail)) : Prop :=
  Confirm.Accepts lib.toEdgeLibrary lib.x (String.ofList material.caChainPem) csr.keypair inp.sentAt
    confirmed v

/-- Part of an exchange: one request, at most three times. -/
theorem posts_of_exchange {rest : History EdgeReq (EdgeRep lib.Detail)}
    {r : Except (SendError lib.Detail) Confirm.ConfirmedEnrollment}
    (h : Follows (exchange lib inp perchpubUrl material csr) (hist ++ rest) r) :
    (hist.filter fun q => q.1.isPost).length ≤ 3 ∧
      ∀ q ∈ hist, q.1.isPost → q.1 = enrollPost lib perchpubUrl material csr := by
  rcases Confirm.follows_send_iff.mp h with ⟨_, -, hnil, -⟩ | ⟨-, v, hattempts, -⟩
  · obtain ⟨rfl, -⟩ := List.append_eq_nil_iff.mp hnil
    exact ⟨Nat.zero_le _, fun q hq => absurd hq List.not_mem_nil⟩
  · constructor
    · have hposts := hattempts.posts.1
      rw [List.filter_append, List.length_append] at hposts
      exact (Nat.le_add_right _ _).trans hposts
    · intro q hq hpost
      rcases hattempts.requests q (List.mem_append_left _ hq) with heq | ⟨pause, -, heq⟩
      · exact heq
      · rw [heq] at hpost
        cases hpost

/-- An exchange that is confirmed ends with an answer that is accepted. -/
theorem accepted_of_exchange
    (h : Follows (exchange lib inp perchpubUrl material csr) hist (.ok confirmed)) :
    ∃ before v, hist = before ++ [⟨enrollPost lib perchpubUrl material csr, v⟩] ∧
      Accepted inp material csr confirmed v := by
  rcases Confirm.follows_send_iff.mp h with ⟨_, -, -, herr⟩ | ⟨-, v, hattempts, hr⟩
  · cases herr
  · obtain ⟨before, hsnoc⟩ := hattempts.snoc
    exact ⟨before, v, hsnoc, Confirm.conclude_ok_iff.mp hr.symm⟩

/-- Wherever `enroll` is stopped: it has sent one request, at most three times, and the disk is as it was
unless the last answer was accepted.  Then `credentials/` holds what it held, or is rotated away next to
the new files, or holds the accepted certificate and chain and the key of the request. -/
theorem enroll_stops_safely (h : Reaches (beside Steady) (run lib inp) (disk, []) t) :
    t = (disk, []) ∨ ∃ perchpubUrl material csr overwrite,
      Prepared inp disk perchpubUrl material csr overwrite ∧
      (t.2.filter fun q => q.1.isPost).length ≤ 3 ∧
      (∀ q ∈ t.2, q.1.isPost → q.1 = enrollPost lib perchpubUrl material csr) ∧
      (t.1 = disk ∨ ∃ before v confirmed,
        t.2 = before ++ [⟨enrollPost lib perchpubUrl material csr, v⟩] ∧
        Accepted inp material csr confirmed v ∧
        (t.1.get .credentials = disk.get .credentials ∨
          (t.1.get .credentials = none ∧ t.1.get .rotated = disk.get .credentials ∧
            t.1.get .staging =
              some (Identity.staged (saveOptions lib inp confirmed csr overwrite))) ∨
          t.1.get .credentials =
            some (Identity.staged (saveOptions lib inp confirmed csr overwrite)))) := by
  rcases reaches_run h with hsame | ⟨perchpubUrl, material, csr, overwrite, hprep, hreach⟩
  · exact Or.inl hsame
  refine Or.inr ⟨perchpubUrl, material, csr, overwrite, hprep, ?_⟩
  rcases reaches_confirmAndPersist hreach with ⟨hdisk, rest, r, hf⟩ | ⟨confirmed, hf, hsave⟩
  · obtain ⟨hle, hall⟩ := posts_of_exchange hf
    exact ⟨hle, hall, Or.inl hdisk⟩
  · have hposts := hf
    rw [← List.append_nil t.2] at hposts
    obtain ⟨hle, hall⟩ := posts_of_exchange hposts
    obtain ⟨before, v, hsnoc, hv⟩ := accepted_of_exchange hf
    refine ⟨hle, hall, Or.inr ⟨before, v, confirmed, hsnoc, hv, ?_⟩⟩
    rcases Identity.stop_save hsave with hold | hbetween | hnew
    · exact Or.inl hold
    · exact Or.inr (Or.inl hbetween.folders)
    · exact Or.inr (Or.inr hnew)

/-! ## Exit codes -/

theorem validateWindow_ne_refused {leaf : lib.x.Cert} {now : DateTime} {reason : String} :
    Confirm.validateWindow lib.x leaf now ≠ .error (.refused reason) := by
  intro h
  unfold Confirm.validateWindow at h
  split at h
  · cases h
  split at h
  · cases h
  split at h
  · cases h
  split at h <;> cases h

theorem verifyLeaf_ne_refused {leaf : lib.x.Cert} {lastErr : Option String} {ders : List Der}
    {reason : String} : Confirm.verifyLeaf lib.x leaf lastErr ders ≠ .error (.refused reason) := by
  induction ders generalizing lastErr with
  | nil =>
    intro h
    cases h
  | cons der ders ih =>
    intro h
    unfold Confirm.verifyLeaf at h
    split at h
    · exact ih h
    split_ifs at h
    · split at h
      · cases h
      · exact ih h
    · exact ih h

theorem validateChain_ne_refused {certPem pinned sent : String} {now : DateTime} {reason : String} :
    Confirm.validateChain lib.x certPem pinned sent now ≠ .error (.refused reason) := by
  intro h
  unfold Confirm.validateChain at h
  split at h
  · cases h
  split at h
  · cases h
  split at h
  · cases h
  split at h
  swap
  · cases h
  split at h
  · cases h
  split at h
  · cases h
  split at h
  · rename_i hwindow
    obtain rfl := Except.error.inj h
    exact validateWindow_ne_refused hwindow
  · exact verifyLeaf_ne_refused h

/-- A response is refused for its `success` field, and for nothing else. -/
theorem validateResponse_refused_iff {parsed : EnrollmentResponse} {chain : String}
    {keypair : lib.x.KeyPair} {now : DateTime} :
    (∃ reason, Confirm.validateResponse lib.x parsed chain keypair now = .error (.refused reason)) ↔
      parsed.success = false := by
  unfold Confirm.validateResponse
  constructor
  · rintro ⟨reason, h⟩
    by_contra hsuccess
    rw [if_neg (by simpa using hsuccess)] at h
    split at h
    · cases h
    split at h
    · cases h
    split at h
    · cases h
    split at h
    · rename_i hkey
      obtain rfl := Except.error.inj h
      unfold Confirm.validateCertAgainstKey at hkey
      split at hkey
      · cases hkey
      split at hkey
      · cases hkey
      split at hkey <;> cases hkey
    split at h
    · rename_i hchain
      obtain rfl := Except.error.inj h
      exact validateChain_ne_refused hchain
    · cases h
  · intro hsuccess
    exact ⟨parsed.reason, by simp [hsuccess]⟩

/-- What the exit code says of the last answer. -/
structure ExitOf (v : Except String (EdgeResponse lib.Detail)) (err : SendError lib.Detail) : Prop where
  transient : (mapConfirmError lib err).exitCode = 75 ↔ Confirm.Transient lib.toEdgeLibrary v
  refused : (mapConfirmError lib err).exitCode = 76 ↔ Confirm.Refuses lib.toEdgeLibrary v

namespace ExitOf

variable {v : Except String (EdgeResponse lib.Detail)} {err : SendError lib.Detail}

theorem of_transient (hcode : (mapConfirmError lib err).exitCode = 75)
    (h : Confirm.Transient lib.toEdgeLibrary v) : ExitOf v err :=
  ⟨iff_of_true hcode h, iff_of_false (by omega) fun hrefuses => hrefuses.not_transient h⟩

theorem of_refuses (hcode : (mapConfirmError lib err).exitCode = 76)
    (h : Confirm.Refuses lib.toEdgeLibrary v) : ExitOf v err :=
  ⟨iff_of_false (by omega) h.not_transient, iff_of_true hcode h⟩

theorem of_neither (hcode : (mapConfirmError lib err).exitCode = 74)
    (htransient : ¬ Confirm.Transient lib.toEdgeLibrary v)
    (hrefuses : ¬ Confirm.Refuses lib.toEdgeLibrary v) : ExitOf v err :=
  ⟨iff_of_false (by omega) htransient, iff_of_false (by omega) hrefuses⟩

end ExitOf

theorem refuses_iff_of_classified {v : Except String (EdgeResponse lib.Detail)}
    {parsed : EnrollmentResponse} (hv : Confirm.classifyAnswer lib.toEdgeLibrary v = .ok parsed) :
    Confirm.Refuses lib.toEdgeLibrary v ↔ parsed.success = false := by
  obtain ⟨response, rfl, hok, hjson⟩ := Confirm.classifyAnswer_ok_iff.mp hv
  constructor
  · rintro ⟨_, ⟨⟩, hclient | hgateway | ⟨-, parsed', hjson', hsuccess⟩⟩
    · rw [hok] at hclient
      exact absurd hclient (by decide)
    · rw [hok] at hgateway
      exact absurd hgateway (by decide)
    · obtain rfl : parsed = parsed' := Except.ok.inj (hjson.symm.trans hjson')
      exact hsuccess
  · intro hsuccess
    exact ⟨response, rfl, Or.inr (Or.inr ⟨hok, parsed, hjson, hsuccess⟩)⟩

theorem exitOf_conclude {v : Except String (EdgeResponse lib.Detail)} {chain url : String}
    {keypair : lib.x.KeyPair} {now : DateTime} {attempts : UInt32} {err : SendError lib.Detail}
    (h : Confirm.conclude (Confirm.validateSent lib.toEdgeLibrary lib.x chain keypair now) attempts url
      v = .error err) : ExitOf v err := by
  unfold Confirm.conclude at h
  cases hv : Confirm.classifyAnswer lib.toEdgeLibrary v with
  | ok parsed =>
    -- an answer that reads as a success fails in its validation
    rw [hv] at h
    unfold Confirm.validateSent at h
    dsimp only at h
    have hrefused := @validateResponse_refused_iff lib parsed chain keypair now
    cases hvalid : Confirm.validateResponse lib.x parsed chain keypair now with
    | ok confirmed =>
      rw [hvalid] at h
      cases h
    | error cause =>
      rw [hvalid] at h hrefused
      obtain rfl := Except.error.inj h
      refine ⟨⟨fun hcode => ?_, ?_⟩, ?_⟩
      · cases cause <;> cases hcode
      · rintro ⟨message, htransient⟩
        rw [hv] at htransient
        cases htransient
      · rw [refuses_iff_of_classified hv, ← hrefused]
        constructor
        · intro hcode
          cases cause with
          | refused reason => exact ⟨reason, rfl⟩
          | _ => cases hcode
        · rintro ⟨reason, heq⟩
          obtain rfl := Except.error.inj heq
          rfl
  | error failure =>
    -- any other answer
    rw [hv] at h
    cases failure with
    | transient message =>
      obtain rfl := Except.error.inj h
      exact .of_transient rfl ⟨message, hv⟩
    | terminal cause =>
      obtain rfl := Except.error.inj h
      have htransient : ¬ Confirm.Transient lib.toEdgeLibrary v := by
        rintro ⟨message, htransient⟩
        rw [hv] at htransient
        cases htransient
      obtain ⟨response, rfl, hok, ⟨hrefused, hcause⟩ | ⟨⟨hclient, hgateway⟩, _, _, rfl⟩⟩ :=
        Confirm.classifyAnswer_terminal hv
      · -- a 4xx or a 502 is a refusal
        have hrefuses : Confirm.Refuses lib.toEdgeLibrary (.ok response) :=
          ⟨response, rfl, hrefused.imp_right Or.inl⟩
        rcases hcause with ⟨_, _, rfl⟩ | ⟨_, _, rfl⟩
        · exact .of_refuses rfl hrefuses
        · exact .of_refuses rfl hrefuses
      · -- an unexpected redirect is neither
        refine .of_neither rfl htransient ?_
        rintro ⟨_, ⟨⟩, hclient' | hgateway' | ⟨hok', -⟩⟩
        · exact absurd hclient' hclient
        · exact absurd hgateway' hgateway
        · exact absurd hok' hok

/-- The last answers of one history are the same. -/
theorem last_answer {before before' : History EdgeReq (EdgeRep lib.Detail)} {url url' : String}
    {body body' : EnrollmentRequest} {v v' : Except String (EdgeResponse lib.Detail)}
    (h : before ++ [⟨.post url body, v⟩] = before' ++ [⟨.post url' body', v'⟩]) : v = v' := by
  obtain ⟨-, hlast⟩ := List.append_inj' h rfl
  cases hlast
  rfl

theorem not_transient_of_accepted {v : Except String (EdgeResponse lib.Detail)}
    (h : Accepted inp material csr confirmed v) : ¬ Confirm.Transient lib.toEdgeLibrary v ∧
      ¬ Confirm.Refuses lib.toEdgeLibrary v := by
  obtain ⟨response, parsed, rfl, hok, hjson, hvalid⟩ := h.answered
  have hv : Confirm.classifyAnswer lib.toEdgeLibrary (.ok response) = .ok parsed :=
    Confirm.classifyAnswer_ok_iff.mpr ⟨response, rfl, hok, hjson⟩
  constructor
  · rintro ⟨message, htransient⟩
    rw [hv] at htransient
    cases htransient
  · intro hrefuses
    have hsuccess := (refuses_iff_of_classified hv).mp hrefuses
    obtain ⟨reason, herr⟩ := validateResponse_refused_iff.mpr hsuccess
    rw [hvalid] at herr
    cases herr

theorem Local.exitCode_ne {err : Failure lib} (h : Local err) :
    err.exitCode ≠ 75 ∧ err.exitCode ≠ 76 := by
  unfold Local at h
  omega

theorem local_of_buildClient {chain : String} {err : SendError lib.Detail}
    (h : Confirm.buildClient lib.toEdgeLibrary chain = .error err) :
    Local (mapConfirmError lib err) := by
  unfold Confirm.buildClient at h
  split at h
  · obtain rfl := Except.error.inj h
    exact Or.inr rfl
  split at h
  · obtain rfl := Except.error.inj h
    exact Or.inr rfl
  · cases h

/-- The exit code comes from the last answer, if there was one. -/
theorem exit_of_run {r : Except (Failure lib) StationIdentity}
    (h : Runs (beside Steady) (run lib inp) (disk, []) r t) :
    (t.2 = [] ∧ exitWith r ≠ 75 ∧ exitWith r ≠ 76) ∨
      ∃ url body v, Confirm.Attempts lib.toEdgeLibrary url body transientBackoff t.2 v ∧
        (exitWith r = 75 ↔ Confirm.Transient lib.toEdgeLibrary v) ∧
        (exitWith r = 76 ↔ Confirm.Refuses lib.toEdgeLibrary v) := by
  rcases runs_run h with ⟨rfl, err, rfl, hlocal⟩ | ⟨perchpubUrl, material, csr, overwrite, hprep, hrun⟩
  · exact Or.inl ⟨rfl, hlocal.exitCode_ne⟩
  rcases runs_confirmAndPersist.mp hrun with ⟨err, hf, -, rfl⟩ | ⟨confirmed, hf, hpersist⟩
  · rcases Confirm.follows_send_iff.mp hf with ⟨err', hclient, hnil, heq⟩ | ⟨-, v, hattempts, heq⟩
    · obtain rfl := Except.error.inj heq
      exact Or.inl ⟨hnil, (local_of_buildClient hclient).exitCode_ne⟩
    · have hexit := exitOf_conclude heq.symm
      exact Or.inr ⟨_, _, v, hattempts, hexit.transient, hexit.refused⟩
  · rcases Confirm.follows_send_iff.mp hf with ⟨_, -, -, heq⟩ | ⟨-, v, hattempts, heq⟩
    · cases heq
    obtain ⟨htransient, hrefuses⟩ :=
      not_transient_of_accepted (Confirm.conclude_ok_iff.mp heq.symm)
    have hne : exitWith r ≠ 75 ∧ exitWith r ≠ 76 := by
      cases r with
      | ok identity => simp [exitWith]
      | error err => exact (local_of_persistIdentity hprep hpersist).exitCode_ne
    exact Or.inr ⟨_, _, v, hattempts, iff_of_false hne.1 htransient, iff_of_false hne.2 hrefuses⟩

theorem runs_save_of_persist {identity : StationIdentity} {u : Disk}
    (h : Runs Steady (persistIdentity lib inp confirmed csr overwrite) disk (.ok identity) u) :
    Runs Steady (Identity.save lib.pki (saveOptions lib inp confirmed csr overwrite)) disk
      (.ok identity) u := by
  obtain ⟨saved, w, hsave, hrest⟩ := (runs_bind _ _ _ _ _).mp h
  cases saved with
  | error err => cases err <;> cases hrest.1
  | ok identity' =>
    obtain ⟨heq, rfl⟩ := hrest
    obtain rfl := Except.ok.inj heq
    exact hsave

/-- A command that succeeds has saved what was accepted. -/
theorem saved_of_run {identity : StationIdentity}
    (h : Runs (beside Steady) (run lib inp) (disk, []) (.ok identity) t) :
    ∃ perchpubUrl material csr overwrite before v confirmed,
      Prepared inp disk perchpubUrl material csr overwrite ∧
      t.2 = before ++ [⟨enrollPost lib perchpubUrl material csr, v⟩] ∧
      Accepted inp material csr confirmed v ∧
      t.1.get .credentials =
        some (Identity.staged (saveOptions lib inp confirmed csr overwrite)) := by
  rcases runs_run h with ⟨-, _, heq, -⟩ | ⟨perchpubUrl, material, csr, overwrite, hprep, hrun⟩
  · cases heq
  rcases runs_confirmAndPersist.mp hrun with ⟨_, -, -, heq⟩ | ⟨confirmed, hf, hpersist⟩
  · cases heq
  obtain ⟨before, v, hsnoc, hv⟩ := accepted_of_exchange hf
  refine ⟨perchpubUrl, material, csr, overwrite, before, v, confirmed, hprep, hsnoc, hv, ?_⟩
  obtain ⟨existed, u, hinstall, hsettle⟩ := (runs_save_of_persist hpersist).bind_ok fun _ => ⟨_, rfl⟩
  have hinstalled := Identity.credentials_of_install (Identity.loose_of_steady hinstall)
  have hsettled := Identity.credentials_of_runs (Identity.within_settle _ existed)
    (Identity.loose_of_steady hsettle)
  exact hsettled.trans hinstalled

/-- The exit codes of `enroll`.  It is 75 exactly if three POSTs were sent and all failed transiently,
and 76 exactly if the last answer refuses the station; after a success the credentials are the accepted
ones. -/
theorem enroll_exit_codes {r : Except (Failure lib) StationIdentity}
    (h : Runs (beside Steady) (run lib inp) (disk, []) r t) :
    (exitWith r = 75 ↔ ∃ url body u v w, Confirm.Transient lib.toEdgeLibrary u ∧
      Confirm.Transient lib.toEdgeLibrary v ∧ Confirm.Transient lib.toEdgeLibrary w ∧
      t.2 = [⟨.post url body, u⟩, ⟨.sleep (.fromSecs 5), ()⟩, ⟨.post url body, v⟩,
        ⟨.sleep (.fromSecs 30), ()⟩, ⟨.post url body, w⟩]) ∧
    (exitWith r = 76 ↔ ∃ before url body v, t.2 = before ++ [⟨.post url body, v⟩] ∧
      Confirm.Refuses lib.toEdgeLibrary v) ∧
    (∀ identity, r = .ok identity → ∃ perchpubUrl material csr overwrite before v confirmed,
      Prepared inp disk perchpubUrl material csr overwrite ∧
      t.2 = before ++ [⟨enrollPost lib perchpubUrl material csr, v⟩] ∧
      Accepted inp material csr confirmed v ∧
      t.1.get .credentials =
        some (Identity.staged (saveOptions lib inp confirmed csr overwrite))) := by
  have hexit := exit_of_run h
  refine ⟨⟨fun hcode => ?_, ?_⟩, ⟨fun hcode => ?_, ?_⟩, fun identity hr => ?_⟩
  · rcases hexit with ⟨-, hne, -⟩ | ⟨url, body, v, hattempts, h75, -⟩
    · exact absurd hcode hne
    · exact ⟨url, body, Confirm.attempts_transientBackoff_iff.mp ⟨v, hattempts, h75.mp hcode⟩⟩
  · rintro ⟨url', body', u, v', w, -, -, hw, hlist⟩
    rcases hexit with ⟨hnil, -⟩ | ⟨url, body, v, hattempts, h75, -⟩
    · rw [hnil] at hlist
      cases hlist
    · obtain ⟨before, hsnoc⟩ := hattempts.snoc
      have hlast : before ++ [⟨.post url body, v⟩] = [_, _, _, _] ++ [⟨.post url' body', w⟩] :=
        hsnoc.symm.trans hlist
      rw [last_answer hlast] at h75
      exact h75.mpr hw
  · rcases hexit with ⟨-, -, hne⟩ | ⟨url, body, v, hattempts, -, h76⟩
    · exact absurd hcode hne
    · obtain ⟨before, hsnoc⟩ := hattempts.snoc
      exact ⟨before, url, body, v, hsnoc, h76.mp hcode⟩
  · rintro ⟨before', url', body', v', hlist, hrefuses⟩
    rcases hexit with ⟨hnil, -⟩ | ⟨url, body, v, hattempts, -, h76⟩
    · rw [hnil] at hlist
      exact absurd hlist.symm (by simp)
    · obtain ⟨before, hsnoc⟩ := hattempts.snoc
      rw [last_answer (hsnoc.symm.trans hlist)] at h76
      exact h76.mpr hrefuses
  · subst hr
    exact saved_of_run h

/-! ## The command and its model without an exchange -/

/-- The run of `Identity.enroll` whose server confirms `confirmed`. -/
def enrollRun (lib : EnrollLibrary) (inp : EnrollInputs lib) (confirmed : Confirm.ConfirmedEnrollment) :
    Identity.EnrollRun lib.pki where
  force := inp.args.force
  qr := .ok ()
  generated := inp.generated
  csr := fun k : lib.x.KeyPair =>
    match Csr.buildFromKeypair lib.rcgen k with
    | .error _ => .error "CSR build failed"
    | .ok _ => .ok ()
  confirm := fun _ =>
    .ok ⟨confirmed.stationId, .text confirmed.certificatePem, .text confirmed.caChainPem⟩
  perchpubUrl := inp.config.perchpubUrl.getD ""
  enrolledAt := inp.enrolledAt

theorem buildFreshCsr_enrollRun (h : buildFreshCsr lib inp = .ok csr) :
    Identity.buildFreshCsr (enrollRun lib inp confirmed) = .ok csr.keypair := by
  unfold buildFreshCsr Csr.generate at h
  split at h
  · cases h
  rename_i hgenerate
  obtain rfl := Except.ok.inj h
  split at hgenerate
  · cases hgenerate
  rename_i k hk
  obtain ⟨hkey, -⟩ := Csr.buildFromKeypair_ok hgenerate
  unfold Identity.buildFreshCsr enrollRun
  simp only [hk, hgenerate, hkey]

theorem fresh_enrollRun {reusedKey : Bool}
    (h : (buildFreshCsr lib inp).map (fun csr => (csr, false)) = .ok (csr, reusedKey)) :
    (Identity.buildFreshCsr (enrollRun lib inp confirmed)).map (fun keypair => (keypair, false)) =
      .ok (csr.keypair, reusedKey) := by
  cases hfresh : buildFreshCsr lib inp with
  | error err =>
    rw [hfresh] at h
    cases h
  | ok csr' =>
    rw [hfresh] at h
    obtain ⟨rfl, rfl⟩ := Prod.mk.inj (Except.ok.inj h)
    rw [buildFreshCsr_enrollRun hfresh]
    rfl

/-- The key of the CSR is the one the model chooses. -/
theorem runs_chooseKey_enrollRun {reusedKey : Bool}
    (h : Runs Steady (obtainCsr lib inp) disk (.ok (csr, reusedKey)) disk) :
    Runs Steady (Identity.chooseKey (enrollRun lib inp confirmed)) disk (.ok (csr.keypair, reusedKey))
      disk := by
  unfold obtainCsr at h
  unfold Identity.chooseKey
  have hforce : (enrollRun lib inp confirmed).force = inp.args.force := rfl
  rw [hforce]
  by_cases hf : inp.args.force = true
  · rw [if_pos hf] at h ⊢
    exact ⟨(fresh_enrollRun h.1.symm).symm, rfl⟩
  · rw [if_neg hf, runs_bind_of_look fun _ _ => Identity.runs_loadKeypair] at h ⊢
    cases hkey : Identity.keypairIn lib.pki (disk.get .credentials) with
    | ok existing =>
      rw [hkey] at h
      dsimp only at h ⊢
      cases hcsr : Csr.buildFromKeypair lib.rcgen existing with
      | error err =>
        rw [hcsr] at h
        cases h.1
      | ok built =>
        rw [hcsr] at h
        obtain ⟨rfl, rfl⟩ := Prod.mk.inj (Except.ok.inj h.1)
        obtain ⟨hbuilt, -⟩ := Csr.buildFromKeypair_ok hcsr
        have hok : (enrollRun lib inp confirmed).csr existing = .ok () := by
          simp only [enrollRun, hcsr]
        rw [hok, hbuilt]
        exact ⟨rfl, rfl⟩
    | error err =>
      rw [hkey] at h
      cases err with
      | io path source =>
        cases source with
        | notFound => exact ⟨(fresh_enrollRun h.1.symm).symm, rfl⟩
        | _ => cases h.1
      | _ => cases h.1

theorem runs_prepare_enrollRun (h : Prepared inp disk perchpubUrl material csr overwrite) :
    Runs Steady (Identity.prepare (enrollRun lib inp confirmed)) disk
      (.ok (csr.keypair, saveOptions lib inp confirmed csr overwrite)) disk := by
  obtain ⟨reusedKey, previous, hobtain, hprevious, rfl⟩ := h.obtained
  exact (runs_bind _ _ _ _ _).mpr ⟨previous, disk, hprevious,
    (runs_bind _ _ _ _ _).mpr ⟨_, disk, runs_chooseKey_enrollRun hobtain, rfl, rfl⟩⟩

/-- Wherever the command is stopped, the model without an exchange may be stopped with the same disk; and
where the command succeeds, so does the model. -/
theorem enroll_refines (lib : EnrollLibrary) (inp : EnrollInputs lib) (disk : Disk)
    (t : Disk × History EdgeReq (EdgeRep lib.Detail)) :
    (Reaches (beside Steady) (run lib inp) (disk, []) t → ∃ enrolling : Identity.EnrollRun lib.pki,
      enrolling.force = inp.args.force ∧ Reaches Steady (Identity.enroll enrolling) disk t.1) ∧
    ∀ identity, Runs (beside Steady) (run lib inp) (disk, []) (.ok identity) t →
      ∃ enrolling : Identity.EnrollRun lib.pki, enrolling.force = inp.args.force ∧
        Runs Steady (Identity.enroll enrolling) disk (.ok identity) t.1 := by
  constructor
  · intro h
    have hstart : ∃ enrolling : Identity.EnrollRun lib.pki, enrolling.force = inp.args.force ∧
        Reaches Steady (Identity.enroll enrolling) disk disk :=
      ⟨enrollRun lib inp ⟨0, "", ""⟩, rfl, reaches_self _ _⟩
    rcases reaches_run h with rfl | ⟨perchpubUrl, material, csr, overwrite, hprep, hreach⟩
    · exact hstart
    rcases reaches_confirmAndPersist hreach with ⟨hdisk, -⟩ | ⟨confirmed, -, hsave⟩
    · rw [hdisk]
      exact hstart
    · exact ⟨enrollRun lib inp confirmed, rfl, (reaches_bind _ _ _ _).mpr (Or.inr ⟨_, disk,
        runs_prepare_enrollRun hprep, (reaches_bind _ _ _ _).mpr (Or.inl hsave)⟩)⟩
  · intro identity h
    rcases runs_run h with ⟨-, _, heq, -⟩ | ⟨perchpubUrl, material, csr, overwrite, hprep, hrun⟩
    · cases heq
    rcases runs_confirmAndPersist.mp hrun with ⟨_, -, -, heq⟩ | ⟨confirmed, hf, hpersist⟩
    · cases heq
    have hsave := runs_save_of_persist hpersist
    exact ⟨enrollRun lib inp confirmed, rfl, (runs_bind _ _ _ _ _).mpr ⟨_, disk,
      runs_prepare_enrollRun hprep, (runs_bind _ _ _ _ _).mpr ⟨_, t.1, hsave, rfl, rfl⟩⟩⟩

/-! ## A first enrollment -/

/-- Certificates and keys that are numbers, and a QR reader that always reads the same session. -/
def numberedLibrary : EnrollLibrary where
  Detail := Unit
  tlsClient := fun _ => .ok ()
  showStatus := fun _ => "200 OK"
  showUuid := fun _ => "session"
  x := Confirm.X509.numbered
  rcgen :=
    { sha256 := fun k => ⟨List.replicate 32 k, List.length_replicate⟩
      Others := Unit
      newParams := fun names => .ok ⟨names.map .dnsName, [], ()⟩
      ia5String := fun _ => .ok ()
      Csr := CertificateParams Unit
      serializeRequest := fun params _ => .ok params
      pem := fun _ => .ok "request"
      fromPem := fun _ => .ok (2 : UInt8)
      serializePem := fun _ => "key" }
  notAfter := fun _ => .error (.pem "no PEM block")
  Frame := Unit
  qr :=
    { width := fun _ => 300
      height := fun _ => 300
      decodeGrid := fun _ => some (.ok [])
      fromStr := fun _ => .ok ⟨[], ['t'], "authority".toList⟩
      parseUuid := fun _ => .ok 1 }

def firstInputs : EnrollInputs numberedLibrary where
  args := ⟨.file, some "qr.png", false⟩
  config := { OperatorConfig.default with perchpubUrl := some "https://perchpub" }
  stillCommand := .ok "rpicam-still"
  nextFrame := fun _ => .ok ()
  generated := .ok (2 : UInt8)
  registry := .new
  decodedAt := .ofSecs 0 DateTime.epoch_inRange
  sentAt := .ofSecs 0 DateTime.epoch_inRange
  enrolledAt := .ofSecs 0 DateTime.epoch_inRange

def firstMaterial : EnrollmentSessionMaterial :=
  ⟨1, ['t'], "authority".toList, .ofSecs 0 DateTime.epoch_inRange⟩

def firstCsr : EnrollmentCsr numberedLibrary.x := ⟨(2 : UInt8), "request"⟩

def firstConfirmed : Confirm.ConfirmedEnrollment := ⟨0, "leaf", "authority"⟩

/-- The edge answers with the leaf and its authority. -/
def firstAnswer : Except String (EdgeResponse numberedLibrary.Detail) :=
  .ok ⟨200, .ok (Confirm.leafWith "authority"), "", none, none⟩

theorem prepared_first :
    Prepared firstInputs .empty "https://perchpub" firstMaterial firstCsr false := by
  have hprevious : Runs Steady Identity.previousStationId (FileMap.empty : Disk) none .empty :=
    (runs_bind _ _ _ _ _).mpr ⟨.ok none, _,
      runs_peekExistingStationId.mpr ⟨by rw [FileMap.get_empty]; rfl, rfl⟩, rfl, rfl⟩
  have hobtain : Runs Steady (obtainCsr numberedLibrary firstInputs) (FileMap.empty : Disk)
      (.ok (firstCsr, false)) .empty := by
    have hforce : ¬ firstInputs.args.force = true := by decide
    rw [obtainCsr, if_neg hforce, runs_bind_of_look fun _ _ => Identity.runs_loadKeypair,
      FileMap.get_empty]
    exact ⟨rfl, rfl⟩
  exact ⟨by decide, rfl, rfl, false, none, hobtain, hprevious, rfl⟩

theorem accepted_first : Accepted firstInputs firstMaterial firstCsr firstConfirmed firstAnswer :=
  ⟨_, _, rfl, rfl, rfl, rfl⟩

theorem follows_first : Follows
    (exchange numberedLibrary firstInputs "https://perchpub" firstMaterial firstCsr)
    [⟨enrollPost numberedLibrary "https://perchpub" firstMaterial firstCsr, firstAnswer⟩]
    (.ok firstConfirmed) := by
  have hlast := (not_transient_of_accepted accepted_first).1
  exact Confirm.follows_send_iff.mpr (Or.inr ⟨rfl, firstAnswer, .last (Or.inr hlast),
    (Confirm.conclude_ok_iff.mpr accepted_first).symm⟩)

/-- A station without credentials is enrolled. -/
theorem runs_first : ∃ identity t,
    Runs (beside Steady) (run numberedLibrary firstInputs) (.empty, []) (.ok identity) t ∧
      t.2 = [⟨enrollPost numberedLibrary "https://perchpub" firstMaterial firstCsr, firstAnswer⟩] := by
  have hparses : Identity.CertParses numberedLibrary.pki
      (saveOptions numberedLibrary firstInputs firstConfirmed firstCsr false) :=
    ⟨.ofSecs 3600 (by decide), rfl⟩
  obtain ⟨identity, hid⟩ := Identity.loaded_staged_iff.mpr hparses
  have hsave : Runs Steady (Identity.save numberedLibrary.pki
      (saveOptions numberedLibrary firstInputs firstConfirmed firstCsr false)) .empty _ _ :=
    Identity.runs_save_absent (FileMap.get_empty _)
  rw [hid] at hsave
  have hpersist : Runs Steady (persistIdentity numberedLibrary firstInputs firstConfirmed firstCsr false)
      .empty (.ok identity) _ := (runs_bind _ _ _ _ _).mpr ⟨_, _, hsave, rfl, rfl⟩
  have hrun : Runs (beside Steady) (confirmAndPersist numberedLibrary firstInputs "https://perchpub"
      firstMaterial firstCsr false) (.empty, []) (.ok identity)
      (Identity.freshDisk .empty (saveOptions numberedLibrary firstInputs firstConfirmed firstCsr false),
        [⟨enrollPost numberedLibrary "https://perchpub" firstMaterial firstCsr, firstAnswer⟩]) :=
    runs_confirmAndPersist.mpr (Or.inr ⟨firstConfirmed, follows_first, hpersist⟩)
  exact ⟨identity, _, prepared_first.runs hrun, rfl⟩

/-- The first enrollment may be stopped when it is done. -/
theorem enroll_stops_safely_first : ∃ t, Reaches (beside Steady) (run numberedLibrary firstInputs)
    (.empty, []) t ∧ (t.2.filter fun q => q.1.isPost).length ≤ 3 := by
  obtain ⟨identity, t, hrun, hhist⟩ := runs_first
  refine ⟨t, hrun.reaches, ?_⟩
  rcases enroll_stops_safely hrun.reaches with rfl | ⟨_, _, _, _, -, hle, -⟩
  · cases hhist
  · exact hle

theorem enroll_exit_codes_first : ∃ identity t,
    Runs (beside Steady) (run numberedLibrary firstInputs) (.empty, []) (.ok identity) t ∧
      t.1.get .credentials ≠ none := by
  obtain ⟨identity, t, hrun, -⟩ := runs_first
  obtain ⟨-, -, hsaved⟩ := enroll_exit_codes hrun
  obtain ⟨_, _, _, _, _, _, _, -, -, -, hcreds⟩ := hsaved identity rfl
  refine ⟨identity, t, hrun, ?_⟩
  rw [hcreds]
  exact Option.some_ne_none _

end Command

end Perchstation
