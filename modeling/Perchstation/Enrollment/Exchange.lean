import Perchstation.Enrollment.Confirm
import Perchstation.Lib.Interleaving
import Perchstation.Observability.Redaction
import Perchstation.Perchpub.Client

/-!
# Exchange — the enrollment POST and its retries (`enrollment/confirm.rs`)

One attempt is one POST; a transient failure is followed by the next entry of the backoff and another
attempt, until the attempts are used up.  The TLS library, the JSON decoders and the `Display` forms of
the HTTP library are parameters.
-/

namespace Perchstation

open Interleaving Resumption

/-- `EnrollmentRequest`. -/
structure EnrollmentRequest where
  authToken : String
  csrPem : String

/-- A response of the enrollment edge; `Detail` is the type of a decoded `HTTPValidationError`. -/
structure EdgeResponse (Detail : Type) where
  status : UInt16
  /-- `response.json()`. -/
  json : Except String EnrollmentResponse
  /-- `response.text().unwrap_or_default()`. -/
  text : String
  /-- `serde_json::from_str(&body_text).ok()`. -/
  detail : Option Detail
  /-- The `Location` header, if it is text. -/
  location : Option String

/-- The errors of `ConfirmError`; `invalid` are those of `validate_response`. -/
inductive SendError (Detail : Type)
  | tlsConfig (message : String)
  | transientExhausted (attempts : UInt32) (url message : String)
  | sessionInvalid (status : UInt16) (detail : Option Detail)
  | serverRejected (status : UInt16) (message : String)
  | unexpectedRedirect (status : UInt16) (location : Option String)
  | invalid (err : ConfirmError)

/-- `AttemptError`. -/
inductive AttemptError (Detail : Type)
  | transient (message : String)
  | terminal (err : SendError Detail)

/-- The POST of an attempt and the sleep between two. -/
inductive EdgeReq
  | post (url : String) (body : EnrollmentRequest)
  | sleep (duration : StdDuration)

def EdgeReq.isPost : EdgeReq → Bool
  | .post _ _ => true
  | .sleep _ => false

@[simp] theorem EdgeReq.isPost_post (url : String) (body : EnrollmentRequest) :
    (EdgeReq.post url body).isPost = true := rfl

@[simp] theorem EdgeReq.isPost_sleep (duration : StdDuration) :
    (EdgeReq.sleep duration).isPost = false := rfl

@[reducible] def EdgeRep (Detail : Type) : EdgeReq → Type
  | .post _ _ => Except String (EdgeResponse Detail)
  | .sleep _ => Unit

abbrev EdgeAct (Detail α : Type) : Type := Prog EdgeReq (EdgeRep Detail) α

/-- What the libraries under the exchange do. -/
structure EdgeLibrary where
  Detail : Type
  /-- `rustls_builder_for_upload` with the chain, and `build`. -/
  tlsClient : String → Except String Unit
  /-- The `Display` form of a `StatusCode`. -/
  showStatus : UInt16 → String
  /-- The `Display` form of a `Uuid`. -/
  showUuid : Uuid → String

/-- `s.trim().is_empty()`. -/
def isBlank (s : String) : Bool := s.toList.all isWhitespace

/-- `is_client_error`. -/
def isClientError (status : UInt16) : Bool := 400 ≤ status ∧ status < 500

/-- `is_server_error`. -/
def isServerError (status : UInt16) : Bool := 500 ≤ status ∧ status < 600

/-- `is_redirection`. -/
def isRedirection (status : UInt16) : Bool := 300 ≤ status ∧ status < 400

/-- `TRANSIENT_BACKOFF`. -/
def transientBackoff : List StdDuration := [.fromSecs 5, .fromSecs 30]

namespace Confirm

section Definitions

variable (lib : EdgeLibrary) (x : X509)

def buildClient (caChainPem : String) : Except (SendError lib.Detail) Unit :=
  if isBlank caChainPem then .error (.invalid .caChainEmpty)
  else match lib.tlsClient caChainPem with
    | .error message => .error (.tlsConfig message)
    | .ok () => .ok ()

def classifyNonTerminalStatus (status : UInt16) (location : Option String) :
    AttemptError lib.Detail :=
  if isRedirection status then .terminal (.unexpectedRedirect status location)
  else .transient ("unexpected HTTP " ++ lib.showStatus status)

/-- A 502 says that perchpub cannot be reached behind its front: it is not worth another POST. -/
def classifyServerError (status : UInt16) (body : String) : AttemptError lib.Detail :=
  if status = 502 then .terminal (.serverRejected status body)
  else .transient ("HTTP " ++ lib.showStatus status ++ ": " ++ body)

/-- `attempt_once` after the POST. -/
def classifyAnswer (answer : Except String (EdgeResponse lib.Detail)) :
    Except (AttemptError lib.Detail) EnrollmentResponse :=
  match answer with
  | .error err => .error (.transient ("send error: " ++ err))
  | .ok response =>
    if response.status = 200 then
      match response.json with
      | .ok parsed => .ok parsed
      | .error err => .error (.transient ("decode 200 body: " ++ err))
    else if response.status = 422 then
      .error (.terminal (.sessionInvalid response.status response.detail))
    else if isClientError response.status then
      .error (.terminal (.serverRejected response.status response.text))
    else if isServerError response.status then
      .error (classifyServerError lib response.status response.text)
    else
      .error (classifyNonTerminalStatus lib response.status response.location)

def attemptOnce (url : String) (body : EnrollmentRequest) :
    EdgeAct lib.Detail (Except (AttemptError lib.Detail) EnrollmentResponse) := do
  let answer ← (Prog.request (.post url body) : EdgeAct lib.Detail _)
  return classifyAnswer lib answer

/-- `u32::try_from(backoff.len()).unwrap_or(u32::MAX).saturating_add(1)`. -/
def maxAttempts (backoff : List StdDuration) : UInt32 :=
  saturatingAdd32 (if backoff.length < 2 ^ 32 then .ofNat backoff.length else 4294967295) 1

/-- The loop of `send_with_backoff`, with the attempts that are left and the last transient failure. -/
def attemptLoop {α : Type} (url : String) (body : EnrollmentRequest) (backoff : List StdDuration)
    (validate : EnrollmentResponse → Except (SendError lib.Detail) α) :
    ℕ → Option String → EdgeAct lib.Detail (Except (SendError lib.Detail) α)
  | 0, lastTransient => return .error (.transientExhausted (maxAttempts backoff) url
      (lastTransient.getD "no detail captured"))
  | left + 1, _ => do
    match ← attemptOnce lib url body with
    | .ok response => return validate response
    | .error (.transient message) =>
      if left = 0 then
        attemptLoop url body backoff validate left (some message)
      else do
        -- this is attempt `maxAttempts - left`
        let pause := backoff.getD ((maxAttempts backoff).toNat - left - 1) (.fromSecs 0)
        let _ ← (Prog.request (.sleep pause) : EdgeAct lib.Detail _)
        attemptLoop url body backoff validate left (some message)
    | .error (.terminal err) => return .error err

/-- The URL an enrollment is posted to. -/
def confirmUrl (perchpubBaseUrl : String) (sessionId : Uuid) : String :=
  PerchpubClient.trimEndSlashes perchpubBaseUrl ++ "/api/v1/enrollment/confirm/" ++
    lib.showUuid sessionId

/-- `validate_response`, its errors among those of an exchange. -/
def validateSent (caChainPem : String) (keypair : x.KeyPair) (now : DateTime)
    (response : EnrollmentResponse) : Except (SendError lib.Detail) ConfirmedEnrollment :=
  (validateResponse x response caChainPem keypair now).mapError .invalid

def sendWithBackoff (perchpubBaseUrl caChainPem : String) (sessionId : Uuid)
    (authToken csrPem : String) (keypair : x.KeyPair) (now : DateTime)
    (backoff : List StdDuration) :
    EdgeAct lib.Detail (Except (SendError lib.Detail) ConfirmedEnrollment) :=
  match buildClient lib caChainPem with
  | .error err => return .error err
  | .ok () =>
    attemptLoop lib (confirmUrl lib perchpubBaseUrl sessionId) ⟨authToken, csrPem⟩ backoff
      (validateSent lib x caChainPem keypair now) (maxAttempts backoff).toNat none

def send (perchpubBaseUrl caChainPem : String) (sessionId : Uuid) (authToken csrPem : String)
    (keypair : x.KeyPair) (now : DateTime) :
    EdgeAct lib.Detail (Except (SendError lib.Detail) ConfirmedEnrollment) :=
  sendWithBackoff lib x perchpubBaseUrl caChainPem sessionId authToken csrPem keypair now
    transientBackoff

end Definitions

/-! ## What is sent, and what comes of it -/

section Results

variable {lib : EdgeLibrary} {x : X509} {α : Type} {url : String} {body : EnrollmentRequest}
  {backoff pauses : List StdDuration} {h : History EdgeReq (EdgeRep lib.Detail)}
  {validate : EnrollmentResponse → Except (SendError lib.Detail) α}

/-- The answer may be followed by another attempt. -/
def Transient (lib : EdgeLibrary) (v : Except String (EdgeResponse lib.Detail)) : Prop :=
  ∃ message, classifyAnswer lib v = .error (.transient message)

/-- POSTs of `body`, all but the last of them transient failures and each of these followed by the next
of the pauses; the last is one only if no pause is left. -/
inductive Attempts (lib : EdgeLibrary) (url : String) (body : EnrollmentRequest) :
    List StdDuration → History EdgeReq (EdgeRep lib.Detail) →
      Except String (EdgeResponse lib.Detail) → Prop
  | last {pauses : List StdDuration} {v : Except String (EdgeResponse lib.Detail)}
      (hlast : pauses = [] ∨ ¬ Transient lib v) : Attempts lib url body pauses [⟨.post url body, v⟩] v
  | again {pause : StdDuration} {pauses : List StdDuration} {v w : Except String (EdgeResponse lib.Detail)}
      {h : History EdgeReq (EdgeRep lib.Detail)} (hv : Transient lib v)
      (hrest : Attempts lib url body pauses h w) :
      Attempts lib url body (pause :: pauses) (⟨.post url body, v⟩ :: ⟨.sleep pause, ()⟩ :: h) w

/-- What an exchange returns after its last answer. -/
def conclude (validate : EnrollmentResponse → Except (SendError lib.Detail) α) (attempts : UInt32)
    (url : String) (v : Except String (EdgeResponse lib.Detail)) : Except (SendError lib.Detail) α :=
  match classifyAnswer lib v with
  | .ok response => validate response
  | .error (.transient message) => .error (.transientExhausted attempts url message)
  | .error (.terminal err) => .error err

/-- The attempts are one more than the pauses, as far as they can be counted. -/
theorem maxAttempts_toNat (backoff : List StdDuration) :
    (maxAttempts backoff).toNat = min (backoff.length + 1) (2 ^ 32 - 1) := by
  rw [maxAttempts, saturatingAdd32_toNat]
  show min (UInt32.toNat _ + 1) _ = _
  split_ifs with hlen
  · rw [UInt32.toNat_ofNat_of_lt' (by exact hlen)]
  · show min (4294967295 + 1) _ = _
    omega

/-- The pauses of an exchange. -/
def pausesOf (backoff : List StdDuration) : List StdDuration :=
  backoff.take ((maxAttempts backoff).toNat - 1)

theorem length_pausesOf (backoff : List StdDuration) :
    (pausesOf backoff).length + 1 = (maxAttempts backoff).toNat := by
  have hmax := maxAttempts_toNat backoff
  rw [pausesOf, List.length_take]
  omega

theorem follows_attemptOnce {r : Except (AttemptError lib.Detail) EnrollmentResponse} :
    Follows (attemptOnce lib url body) h r ↔ ∃ v, h = [⟨.post url body, v⟩] ∧
      r = classifyAnswer lib v := by
  refine follows_request_bind_iff.trans ⟨?_, ?_⟩
  · rintro ⟨v, t, rfl, ht⟩
    obtain ⟨rfl, rfl⟩ := follows_pure ht
    exact ⟨v, rfl, rfl⟩
  · rintro ⟨v, rfl, rfl⟩
    exact ⟨v, [], rfl, .pure _⟩

/-- The pause after an attempt with `left` more to come. -/
def pauseAt (backoff : List StdDuration) (left : ℕ) : StdDuration :=
  backoff.getD ((maxAttempts backoff).toNat - left - 1) (.fromSecs 0)

/-- One attempt of the loop. -/
theorem follows_attemptLoop_succ {left : ℕ} {lastTransient : Option String}
    {r : Except (SendError lib.Detail) α} :
    Follows (attemptLoop lib url body backoff validate (left + 1) lastTransient) h r ↔
      ∃ v, (h = [⟨.post url body, v⟩] ∧ (¬ Transient lib v ∨ left = 0) ∧
          r = conclude validate (maxAttempts backoff) url v) ∨
        ∃ message t, classifyAnswer lib v = .error (.transient message) ∧ left ≠ 0 ∧
          h = ⟨.post url body, v⟩ :: ⟨.sleep (pauseAt backoff left), ()⟩ :: t ∧
          Follows (attemptLoop lib url body backoff validate left (some message)) t r := by
  constructor
  · -- a run is taken apart by its answer: only a transient one leads on
    intro hrun
    obtain ⟨h₁, h₂, answer, rfl, hpost, hrest⟩ := follows_bind hrun
    obtain ⟨v, rfl, rfl⟩ := follows_attemptOnce.mp hpost
    refine ⟨v, ?_⟩
    unfold conclude Transient
    cases hv : classifyAnswer lib v with
    | ok response =>
      rw [hv] at hrest
      obtain ⟨rfl, rfl⟩ := follows_pure hrest
      exact Or.inl ⟨rfl, Or.inl (by simp), rfl⟩
    | error err =>
      rw [hv] at hrest
      cases err with
      | terminal err =>
        obtain ⟨rfl, rfl⟩ := follows_pure hrest
        exact Or.inl ⟨rfl, Or.inl (by simp), rfl⟩
      | transient message =>
        dsimp only at hrest
        split_ifs at hrest with hleft
        · subst hleft
          obtain ⟨rfl, rfl⟩ := follows_pure hrest
          exact Or.inl ⟨rfl, Or.inr rfl, rfl⟩
        · obtain ⟨-, t, rfl, ht⟩ := follows_request_bind hrest
          exact Or.inr ⟨message, t, rfl, hleft, rfl, ht⟩
  · -- the answer leads through the same branches
    rintro ⟨v, hround⟩
    have hpost : Follows (attemptOnce lib url body) [⟨.post url body, v⟩] (classifyAnswer lib v) :=
      follows_attemptOnce.mpr ⟨v, rfl, rfl⟩
    rcases hround with ⟨rfl, hlast, rfl⟩ | ⟨message, t, hv, hleft, rfl, ht⟩
    · refine hpost.bind ?_
      unfold conclude
      cases hv : classifyAnswer lib v with
      | ok response => exact .pure _
      | error err =>
        cases err with
        | terminal err => exact .pure _
        | transient message =>
          obtain rfl : left = 0 := hlast.resolve_left fun hnot => hnot ⟨message, hv⟩
          exact .pure _
    · refine hpost.bind ?_
      rw [hv]
      dsimp only
      rw [if_neg hleft]
      exact follows_request_bind_iff.mpr ⟨(), t, rfl, ht⟩

/-- The pauses from an attempt with `left` more to come on. -/
theorem drop_pausesOf {left : ℕ} (hpos : left ≠ 0) (hleft : left < (maxAttempts backoff).toNat) :
    (pausesOf backoff).drop ((maxAttempts backoff).toNat - left - 1) =
      pauseAt backoff left :: (pausesOf backoff).drop ((maxAttempts backoff).toNat - left) := by
  have hlen := length_pausesOf backoff
  have hin : (maxAttempts backoff).toNat - left - 1 < (pausesOf backoff).length := by omega
  have hnext : (maxAttempts backoff).toNat - left - 1 + 1 = (maxAttempts backoff).toNat - left := by
    omega
  rw [List.drop_eq_getElem_cons hin, hnext]
  congr 1
  have hlong : (maxAttempts backoff).toNat - left - 1 < backoff.length := by
    rw [pausesOf, List.length_take] at hin
    omega
  rw [pauseAt, List.getD_eq_getElem?_getD, List.getElem?_eq_getElem hlong]
  simp only [pausesOf, List.getElem_take, Option.getD_some]

/-- With `left + 1` attempts left, the loop goes through the pauses that are left. -/
theorem follows_attemptLoop {left : ℕ} {lastTransient : Option String}
    {r : Except (SendError lib.Detail) α} (hleft : left < (maxAttempts backoff).toNat) :
    Follows (attemptLoop lib url body backoff validate (left + 1) lastTransient) h r ↔
      ∃ v, Attempts lib url body ((pausesOf backoff).drop ((maxAttempts backoff).toNat - left - 1)) h v ∧
        r = conclude validate (maxAttempts backoff) url v := by
  have hlen := length_pausesOf backoff
  induction left generalizing h lastTransient with
  | zero =>
    have hnil : (pausesOf backoff).drop ((maxAttempts backoff).toNat - 0 - 1) = [] :=
      List.drop_eq_nil_of_le (by omega)
    rw [hnil, follows_attemptLoop_succ]
    constructor
    · rintro ⟨v, ⟨rfl, -, rfl⟩ | ⟨_, _, _, hne, -⟩⟩
      · exact ⟨v, .last (Or.inl rfl), rfl⟩
      · exact absurd rfl hne
    · rintro ⟨v, ⟨-⟩, rfl⟩
      exact ⟨v, Or.inl ⟨rfl, Or.inr rfl, rfl⟩⟩
  | succ left ih =>
    rw [drop_pausesOf left.succ_ne_zero hleft, follows_attemptLoop_succ]
    have hrest : (maxAttempts backoff).toNat - (left + 1) = (maxAttempts backoff).toNat - left - 1 := by
      omega
    rw [hrest]
    constructor
    · rintro ⟨v, ⟨rfl, hlast, rfl⟩ | ⟨message, t, hv, -, rfl, ht⟩⟩
      · exact ⟨v, .last (Or.inr (hlast.resolve_right left.succ_ne_zero)), rfl⟩
      · obtain ⟨w, hw, rfl⟩ := (ih (by omega)).mp ht
        exact ⟨w, .again ⟨message, hv⟩ hw, rfl⟩
    · rintro ⟨w, hw, rfl⟩
      cases hw with
      | last hlast =>
        exact ⟨w, Or.inl ⟨rfl, Or.inl (hlast.resolve_left (List.cons_ne_nil _ _)), rfl⟩⟩
      | @again _ _ v _ t hv hw =>
        obtain ⟨message, hv⟩ := hv
        exact ⟨v, Or.inr ⟨message, t, hv, left.succ_ne_zero, rfl, (ih (by omega)).mpr ⟨w, hw, rfl⟩⟩⟩

section Client

variable {perchpubBaseUrl caChainPem authToken csrPem : String} {sessionId : Uuid}
  {keypair : x.KeyPair} {now : DateTime} {r : Except (SendError lib.Detail) ConfirmedEnrollment}

/-- A fact about an exchange, by whether its client is built. -/
theorem iff_by_buildClient {P R : Prop} {Q : SendError lib.Detail → Prop}
    (herr : ∀ err, buildClient lib caChainPem = .error err → (P ↔ Q err))
    (hok : buildClient lib caChainPem = .ok () → (P ↔ R)) :
    P ↔ (∃ err, buildClient lib caChainPem = .error err ∧ Q err) ∨
      (buildClient lib caChainPem = .ok () ∧ R) := by
  cases hclient : buildClient lib caChainPem with
  | error err =>
    rw [herr err hclient]
    constructor
    · exact fun hq => Or.inl ⟨err, rfl, hq⟩
    · rintro (⟨_, ⟨⟩, hq⟩ | ⟨⟨⟩, -⟩)
      exact hq
  | ok _ =>
    rw [hok hclient]
    constructor
    · exact fun hr => Or.inr ⟨rfl, hr⟩
    · rintro (⟨_, ⟨⟩, -⟩ | ⟨-, hr⟩)
      exact hr

/-- Without a client nothing is sent. -/
theorem follows_unbuilt {err : SendError lib.Detail}
    (hclient : buildClient lib caChainPem = .error err) :
    Follows (sendWithBackoff lib x perchpubBaseUrl caChainPem sessionId authToken csrPem keypair now
      backoff) h r ↔ h = [] ∧ r = .error err := by
  unfold sendWithBackoff
  rw [hclient]
  exact follows_pure_iff

/-- With one, the attempts are made. -/
theorem follows_built (hclient : buildClient lib caChainPem = .ok ()) :
    Follows (sendWithBackoff lib x perchpubBaseUrl caChainPem sessionId authToken csrPem keypair now
      backoff) h r ↔
      ∃ v, Attempts lib (confirmUrl lib perchpubBaseUrl sessionId) ⟨authToken, csrPem⟩
          (pausesOf backoff) h v ∧
        r = conclude (validateSent lib x caChainPem keypair now) (maxAttempts backoff)
          (confirmUrl lib perchpubBaseUrl sessionId) v := by
  have hlen := length_pausesOf backoff
  obtain ⟨left, hmax⟩ : ∃ left, (maxAttempts backoff).toNat = left + 1 := ⟨_, hlen.symm⟩
  have hdrop : (pausesOf backoff).drop ((maxAttempts backoff).toNat - left - 1) =
      pausesOf backoff := by
    rw [hmax, Nat.add_sub_cancel_left]
    rfl
  unfold sendWithBackoff
  rw [hclient]
  dsimp only
  rw [hmax, follows_attemptLoop (by omega), hdrop]

end Client

/-- `sendWithBackoff` posts as long as its attempts fail transiently and a pause is left, always the
same to the same place; what the last answer comes to is its result. -/
theorem follows_sendWithBackoff_iff {perchpubBaseUrl caChainPem authToken csrPem : String}
    {sessionId : Uuid} {keypair : x.KeyPair} {now : DateTime}
    {r : Except (SendError lib.Detail) ConfirmedEnrollment} :
    Follows (sendWithBackoff lib x perchpubBaseUrl caChainPem sessionId authToken csrPem keypair now
      backoff) h r ↔
      (∃ err, buildClient lib caChainPem = .error err ∧ h = [] ∧ r = .error err) ∨
        (buildClient lib caChainPem = .ok () ∧
          ∃ v, Attempts lib (confirmUrl lib perchpubBaseUrl sessionId) ⟨authToken, csrPem⟩
              (pausesOf backoff) h v ∧
            r = conclude (validateSent lib x caChainPem keypair now) (maxAttempts backoff)
              (confirmUrl lib perchpubBaseUrl sessionId) v) := by
  apply iff_by_buildClient
  · exact fun err hclient => follows_unbuilt hclient
  · exact fun hclient => follows_built hclient

/-- The requests of an exchange. -/
theorem Attempts.requests {hist : History EdgeReq (EdgeRep lib.Detail)}
    {v : Except String (EdgeResponse lib.Detail)} (h : Attempts lib url body pauses hist v) :
    ∀ q ∈ hist, q.1 = .post url body ∨ ∃ pause ∈ pauses, q.1 = .sleep pause := by
  induction h with
  | last _ =>
    intro q hq
    rw [List.mem_singleton.mp hq]
    exact Or.inl rfl
  | again _ _ ih =>
    intro q hq
    rcases List.mem_cons.mp hq with rfl | hq
    · exact Or.inl rfl
    rcases List.mem_cons.mp hq with rfl | hq
    · exact Or.inr ⟨_, List.mem_cons_self, rfl⟩
    rcases ih q hq with hpost | ⟨pause, hmem, hsleep⟩
    · exact Or.inl hpost
    · exact Or.inr ⟨pause, List.mem_cons_of_mem _ hmem, hsleep⟩

/-- There are at most as many POSTs as pauses and one more, and as many if the last one fails
transiently. -/
theorem Attempts.posts {hist : History EdgeReq (EdgeRep lib.Detail)}
    {v : Except String (EdgeResponse lib.Detail)} (h : Attempts lib url body pauses hist v) :
    (hist.filter fun q => q.1.isPost).length ≤ pauses.length + 1 ∧
      (Transient lib v → (hist.filter fun q => q.1.isPost).length = pauses.length + 1) := by
  induction h with
  | last hlast =>
    refine ⟨Nat.le_add_left 1 _, fun hv => ?_⟩
    rw [hlast.resolve_right (not_not_intro hv)]
    rfl
  | again _ _ ih =>
    simp only [List.filter_cons, EdgeReq.isPost_post, EdgeReq.isPost_sleep, if_true,
      Bool.false_eq_true, if_false, List.length_cons]
    exact ⟨by omega, fun hv => by rw [ih.2 hv]⟩

/-- The last request of an exchange is the POST that was answered last. -/
theorem Attempts.snoc {hist : History EdgeReq (EdgeRep lib.Detail)}
    {v : Except String (EdgeResponse lib.Detail)} (h : Attempts lib url body pauses hist v) :
    ∃ before, hist = before ++ [⟨.post url body, v⟩] := by
  induction h with
  | last _ => exact ⟨[], rfl⟩
  | @again pause _ u _ _ _ _ ih =>
    obtain ⟨before, rfl⟩ := ih
    exact ⟨⟨.post url body, u⟩ :: ⟨.sleep pause, ()⟩ :: before, rfl⟩

/-- An exchange over the two pauses fails transiently if all three POSTs do. -/
theorem attempts_transientBackoff_iff {hist : History EdgeReq (EdgeRep lib.Detail)} :
    (∃ v, Attempts lib url body transientBackoff hist v ∧ Transient lib v) ↔
      ∃ u v w, Transient lib u ∧ Transient lib v ∧ Transient lib w ∧
        hist = [⟨.post url body, u⟩, ⟨.sleep (.fromSecs 5), ()⟩, ⟨.post url body, v⟩,
          ⟨.sleep (.fromSecs 30), ()⟩, ⟨.post url body, w⟩] := by
  constructor
  · rintro ⟨w, h, hw⟩
    cases h with
    | last hlast => exact absurd hw (hlast.resolve_left (List.cons_ne_nil _ _))
    | again hu h =>
      cases h with
      | last hlast => exact absurd hw (hlast.resolve_left (List.cons_ne_nil _ _))
      | again hv h =>
        cases h with
        | last _ => exact ⟨_, _, w, hu, hv, hw, rfl⟩
  · rintro ⟨u, v, w, hu, hv, hw, rfl⟩
    exact ⟨w, .again hu (.again hv (.last (Or.inl rfl))), hw⟩

section Send

variable {perchpubBaseUrl caChainPem authToken csrPem : String} {sessionId : Uuid}
  {keypair : x.KeyPair} {now : DateTime}

/-- `send` waits 5 s after a first transient failure and 30 s after a second. -/
theorem follows_send_iff {r : Except (SendError lib.Detail) ConfirmedEnrollment} :
    Follows (send lib x perchpubBaseUrl caChainPem sessionId authToken csrPem keypair now) h r ↔
      (∃ err, buildClient lib caChainPem = .error err ∧ h = [] ∧ r = .error err) ∨
        (buildClient lib caChainPem = .ok () ∧
          ∃ v, Attempts lib (confirmUrl lib perchpubBaseUrl sessionId) ⟨authToken, csrPem⟩
              transientBackoff h v ∧
            r = conclude (validateSent lib x caChainPem keypair now) 3
              (confirmUrl lib perchpubBaseUrl sessionId) v) := by
  apply iff_by_buildClient
  · exact fun err hclient => follows_unbuilt hclient
  · exact fun hclient => follows_built hclient

/-- The response is one the station accepts. -/
structure Accepts (lib : EdgeLibrary) (x : X509) (caChainPem : String) (keypair : x.KeyPair)
    (now : DateTime) (confirmed : ConfirmedEnrollment)
    (v : Except String (EdgeResponse lib.Detail)) : Prop where
  answered : ∃ response parsed, v = .ok response ∧ response.status = 200 ∧
    response.json = .ok parsed ∧ validateResponse x parsed caChainPem keypair now = .ok confirmed

/-- The edge turned the station away. -/
structure Refuses (lib : EdgeLibrary) (v : Except String (EdgeResponse lib.Detail)) : Prop where
  answered : ∃ response, v = .ok response ∧
    (isClientError response.status ∨ response.status = 502 ∨
      response.status = 200 ∧ ∃ parsed, response.json = .ok parsed ∧ parsed.success = false)

theorem classifyAnswer_ok_iff {v : Except String (EdgeResponse lib.Detail)}
    {parsed : EnrollmentResponse} : classifyAnswer lib v = .ok parsed ↔
      ∃ response, v = .ok response ∧ response.status = 200 ∧ response.json = .ok parsed := by
  unfold classifyAnswer
  constructor
  · intro h
    cases v with
    | error err => cases h
    | ok response =>
      dsimp only at h
      split_ifs at h with hok
      cases hjson : response.json with
      | error err =>
        rw [hjson] at h
        cases h
      | ok parsed' =>
        rw [hjson] at h
        obtain rfl := Except.ok.inj h
        exact ⟨response, rfl, hok, hjson⟩
  · rintro ⟨response, rfl, hok, hjson⟩
    dsimp only
    rw [if_pos hok, hjson]

/-- What ends an exchange before its attempts are used up. -/
theorem classifyAnswer_terminal {v : Except String (EdgeResponse lib.Detail)}
    {err : SendError lib.Detail} (h : classifyAnswer lib v = .error (.terminal err)) :
    ∃ response, v = .ok response ∧ response.status ≠ 200 ∧
      ((isClientError response.status ∨ response.status = 502) ∧
          ((∃ status detail, err = .sessionInvalid status detail) ∨
            ∃ status message, err = .serverRejected status message) ∨
        (¬ isClientError response.status ∧ response.status ≠ 502) ∧
          ∃ status location, err = .unexpectedRedirect status location) := by
  unfold classifyAnswer at h
  cases v with
  | error message => cases h
  | ok response =>
    refine ⟨response, rfl, ?_⟩
    dsimp only at h
    split at h
    · split at h <;> cases h
    rename_i hok
    refine ⟨hok, ?_⟩
    split at h
    · rename_i hinvalid
      cases h
      exact Or.inl ⟨Or.inl (by rw [hinvalid]; decide), Or.inl ⟨_, _, rfl⟩⟩
    split at h
    · rename_i hclient
      cases h
      exact Or.inl ⟨Or.inl hclient, Or.inr ⟨_, _, rfl⟩⟩
    rename_i hclient
    split at h
    · unfold classifyServerError at h
      split at h
      · rename_i hgateway
        cases h
        exact Or.inl ⟨Or.inr hgateway, Or.inr ⟨_, _, rfl⟩⟩
      · cases h
    rename_i hserver
    unfold classifyNonTerminalStatus at h
    split at h
    · cases h
      refine Or.inr ⟨⟨hclient, ?_⟩, _, _, rfl⟩
      intro hgateway
      rw [hgateway] at hserver
      exact absurd hserver (by decide)
    · cases h

/-- A refusal is not tried again. -/
theorem Refuses.not_transient {v : Except String (EdgeResponse lib.Detail)} (h : Refuses lib v) :
    ¬ Transient lib v := by
  obtain ⟨response, rfl, hrefused⟩ := h.answered
  rintro ⟨message, htransient⟩
  unfold classifyAnswer at htransient
  dsimp only at htransient
  split at htransient
  · rename_i hok
    rcases hrefused with hclient | hgateway | ⟨-, parsed, hjson, -⟩
    · rw [hok] at hclient
      exact absurd hclient (by decide)
    · rw [hok] at hgateway
      exact absurd hgateway (by decide)
    · rw [hjson] at htransient
      cases htransient
  rename_i hok
  have hrest : isClientError response.status ∨ response.status = 502 := by
    rcases hrefused with hclient | hgateway | ⟨hsame, -⟩
    · exact Or.inl hclient
    · exact Or.inr hgateway
    · exact absurd hsame hok
  split at htransient
  · cases htransient
  split at htransient
  · cases htransient
  rename_i hclient
  have hgateway : response.status = 502 := hrest.resolve_left hclient
  rw [hgateway] at htransient
  cases htransient

theorem conclude_ok_iff {v : Except String (EdgeResponse lib.Detail)} {attempts : UInt32}
    {confirmed : ConfirmedEnrollment} :
    conclude (validateSent lib x caChainPem keypair now) attempts url v = .ok confirmed ↔
      Accepts lib x caChainPem keypair now confirmed v := by
  constructor
  · intro h
    unfold conclude at h
    cases hv : classifyAnswer lib v with
    | error err =>
      rw [hv] at h
      cases err <;> cases h
    | ok parsed =>
      rw [hv] at h
      obtain ⟨response, rfl, hok, hjson⟩ := classifyAnswer_ok_iff.mp hv
      refine ⟨response, parsed, rfl, hok, hjson, ?_⟩
      unfold validateSent at h
      dsimp only at h
      cases hvalid : validateResponse x parsed caChainPem keypair now with
      | error err =>
        rw [hvalid] at h
        cases h
      | ok confirmed' =>
        rw [hvalid] at h
        rw [Except.ok.inj h]
  · rintro ⟨response, parsed, rfl, hok, hjson, hvalid⟩
    unfold conclude validateSent
    rw [classifyAnswer_ok_iff.mpr ⟨response, rfl, hok, hjson⟩]
    dsimp only
    rw [hvalid]
    rfl

end Send

end Results

end Confirm

end Perchstation
