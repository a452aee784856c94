import Perchstation.World

/-!
# Perchpub client — capped responses and their classification (`perchpub/client.rs`)

The body of a response is read chunk by chunk under a fixed cap, then the whole response is turned
into a classify task or an error.  URL parsing is the `url` crate's and stays a parameter of the
client.
-/

namespace Perchstation

/-- A parsed `Url`: its text and its authority. -/
structure Url where
  text : String
  authority : String

/-- The part of `PerchpubClient` that is fixed at construction. -/
structure PerchpubClient where
  parse : String → Except String Url
  baseUrl : Url

/-- `MAX_RESPONSE_BYTES`. -/
def maxResponseBytes : ℕ := 2 ^ 20

/-- `parse_retry_after`; a date in the past clamps to zero. -/
def parseRetryAfter (header : RetryAfterHeader) (now : DateTime) : Option StdDuration :=
  match header with
  | .absent => none
  | .deltaSeconds secs => some (StdDuration.fromSecs secs.toNat)
  | .httpDate date => some (date.since now).toStdOrZero
  | .unparseable => none

/-- `StatusCode::is_success`. -/
def isSuccess (status : UInt16) : Bool := 200 ≤ status ∧ status < 300

/-- The read loop of `read_capped`; `size` is the number of bytes buffered so far. -/
def readChunks (url : String) (broken : Option String) : ℕ → List ℕ → Except ClientError Unit
  | _, [] =>
    match broken with
    | none => .ok ()
    | some message => .error (.network url message)
  | size, chunk :: rest =>
    if size + chunk > maxResponseBytes then
      .error (.decode url
        ("response body exceeds " ++ toString maxResponseBytes ++ "-byte cap"))
    else
      readChunks url broken (size + chunk) rest

/-- `read_capped`: the advertised length is looked at before the body is. -/
def readCapped (response : HttpResponse) (url : String) : Except ClientError Unit :=
  if response.contentLength.any fun len => maxResponseBytes < len.toNat then
    .error (.decode url
      ("response Content-Length exceeds " ++ toString maxResponseBytes ++ "-byte cap"))
  else
    readChunks url response.broken 0 response.chunks

/-- `classify_response`, for a response whose body was read under the cap. -/
def classifyResponse (response : HttpResponse) (retryAfter : Option StdDuration) (url : String) :
    Except ClientError ClassifyTaskPublic :=
  if isSuccess response.status then
    match response.task with
    | .ok task => .ok task
    | .error message => .error (.undecodableSuccess url message)
  else
    .error (.http url response.status response.text retryAfter)

def readAndClassify (response : HttpResponse) (now : DateTime) (url : String) :
    Except ClientError ClassifyTaskPublic :=
  match readCapped response url with
  | .error err => .error err
  | .ok () => classifyResponse response (parseRetryAfter response.retryAfter now) url

namespace PerchpubClient

/-- `trim_end_matches('/')`. -/
def trimEndSlashes (s : String) : String :=
  String.ofList (s.toList.reverse.dropWhile (· = '/')).reverse

def endpoint (client : PerchpubClient) (path : String) : Except ClientError Url :=
  let s := trimEndSlashes client.baseUrl.text ++ path
  match client.parse s with
  | .ok url => .ok url
  | .error message => .error (.invalidUrl s message)

def checkAuthority (client : PerchpubClient) (url : Url) : Except ClientError Unit :=
  if url.authority = client.baseUrl.authority then .ok ()
  else .error (.outboundDisallowed url.authority client.baseUrl.authority)

/-- The gate every request passes: its URL, checked against the configured authority. -/
def allowed (client : PerchpubClient) (path : String) : Except ClientError Url :=
  match client.endpoint path with
  | .error err => .error err
  | .ok url =>
    match client.checkAuthority url with
    | .error err => .error err
    | .ok () => .ok url

/-- `POST /api/v1/upload/` of a clip in `inflight/`. -/
def uploadClip (client : PerchpubClient) (clipPath : Path) (clipId : ClipId) :
    Act (Except ClientError ClassifyTaskPublic) := do
  match client.allowed "/api/v1/upload/" with
  | .error err => return .error err
  | .ok url =>
    match ← openFile clipPath with
    | .error source => return .error (.clipOpen clipPath.display source)
    | .ok () =>
      match ← post url.text clipPath (clipId ++ Ext.mp4.suffix) with
      | .error message => return .error (.network url.text message)
      | .ok response =>
        let at_ ← now
        return readAndClassify response at_ url.text

/-- `GET /api/v1/classify-task/{id}`; `showUuid` is the `Display` form of a UUID. -/
def getClassifyTask (client : PerchpubClient) (showUuid : Uuid → String) (id : Uuid) :
    Act (Except ClientError ClassifyTaskPublic) := do
  match client.allowed ("/api/v1/classify-task/" ++ showUuid id) with
  | .error err => return .error err
  | .ok url =>
    match ← getUrl url.text with
    | .error message => return .error (.network url.text message)
    | .ok response =>
      let at_ ← now
      return readAndClassify response at_ url.text

end PerchpubClient

section Runs

open Resumption

variable {fs t : Fs} {client : PerchpubClient} {r : Except ClientError ClassifyTaskPublic}

/-- What an upload can come to: its URL is refused, the clip cannot be opened, no response arrives,
or a response is read and classified.  The files are left alone. -/
theorem runs_uploadClip_iff {p : Path} {c : ClipId} :
    Runs Nominal (client.uploadClip p c) fs r t ↔ t = fs ∧
      match client.allowed "/api/v1/upload/" with
      | .error err => r = .error err
      | .ok url => (fs.get p = none ∧ r = .error (.clipOpen p.display .notFound)) ∨
          (fs.get p).isSome ∧ ((∃ message, r = .error (.network url.text message)) ∨
            ∃ response at_, r = readAndClassify response at_ url.text) := by
  unfold PerchpubClient.uploadClip
  cases ha : client.allowed "/api/v1/upload/" with
  | error err => simp [and_comm]
  | ok url =>
    simp only [runs_bind, runs_openFile, Nominal]
    cases hp : fs.get p with
    | none => simp [and_comm]
    | some b =>
      simp only [and_assoc, exists_eq_left, runs_bind, runs_post, Nominal,
        reduceCtorEq, false_and, Option.isSome_some, true_and, false_or]
      constructor
      · rintro ⟨answer, h⟩
        cases answer with
        | error message =>
          obtain ⟨rfl, rfl⟩ := h
          exact ⟨rfl, Or.inl ⟨message, rfl⟩⟩
        | ok response =>
          simp only [runs_bind, runs_now, Nominal] at h
          obtain ⟨at_, _, rfl, rfl, rfl⟩ := h
          exact ⟨rfl, Or.inr ⟨response, at_, rfl⟩⟩
      · rintro ⟨rfl, ⟨message, rfl⟩ | ⟨response, at_, rfl⟩⟩
        · exact ⟨.error message, rfl, rfl⟩
        · refine ⟨.ok response, ?_⟩
          simp only [runs_bind, runs_now, Nominal]
          exact ⟨at_, t, rfl, rfl, rfl⟩

theorem runs_getClassifyTask {showUuid : Uuid → String} {id : Uuid}
    (h : Runs Nominal (client.getClassifyTask showUuid id) fs r t) : t = fs := by
  unfold PerchpubClient.getClassifyTask at h
  cases ha : client.allowed ("/api/v1/classify-task/" ++ showUuid id) with
  | error err =>
    rw [ha] at h
    exact h.2
  | ok url =>
    simp only [ha, runs_bind, runs_getUrl, Nominal] at h
    obtain ⟨p, _, rfl, h⟩ := h
    cases p with
    | error message => exact h.2
    | ok response =>
      simp only [runs_bind, runs_now, Nominal] at h
      obtain ⟨_, _, rfl, -, rfl⟩ := h
      rfl

end Runs

/-! ## What becomes of a 2xx -/

/-- The whole body arrives and stays under the cap, and so does its advertised length. -/
def HttpResponse.Readable (response : HttpResponse) : Prop :=
  (∀ len, response.contentLength = some len → len.toNat ≤ maxResponseBytes) ∧
    response.broken = none ∧ response.chunks.sum ≤ maxResponseBytes

/-- An error that is retried although the server has answered 2xx. -/
def ClientError.IsBodyFailure : ClientError → Prop
  | .network _ _ => True
  | .decode _ _ => True
  | _ => False

theorem readChunks_ok_iff (url : String) (broken : Option String) (size : ℕ) (chunks : List ℕ)
    (hsize : size ≤ maxResponseBytes) :
    readChunks url broken size chunks = .ok () ↔
      broken = none ∧ size + chunks.sum ≤ maxResponseBytes := by
  induction chunks generalizing size with
  | nil =>
    cases broken with
    | none => simpa [readChunks] using hsize
    | some message => simp [readChunks]
  | cons chunk rest ih =>
    rw [readChunks, List.sum_cons]
    split_ifs with h
    · simp only [false_iff, not_and]
      intro _
      omega
    · rw [ih (size + chunk) (by omega), Nat.add_assoc]

theorem readChunks_error (url : String) (broken : Option String) (size : ℕ) (chunks : List ℕ)
    (err : ClientError) (h : readChunks url broken size chunks = .error err) :
    err.IsBodyFailure := by
  induction chunks generalizing size with
  | nil =>
    cases broken with
    | none => simp [readChunks] at h
    | some message =>
      obtain rfl : ClientError.network url message = err := by simpa [readChunks] using h
      trivial
  | cons chunk rest ih =>
    rw [readChunks] at h
    split_ifs at h with hc
    · obtain rfl := Except.error.inj h
      trivial
    · exact ih (size + chunk) h

/-- The body is read to its end exactly if the response is readable. -/
theorem readCapped_ok_iff (response : HttpResponse) (url : String) :
    readCapped response url = .ok () ↔ response.Readable := by
  unfold readCapped HttpResponse.Readable
  rw [← Nat.zero_add response.chunks.sum, ← readChunks_ok_iff url response.broken 0
    response.chunks (Nat.zero_le _)]
  split_ifs with h
  · simp only [Option.any_eq_true, decide_eq_true_eq] at h
    obtain ⟨len, hlen, hlt⟩ := h
    simp only [false_iff, not_and]
    intro hle
    exact absurd (hle len hlen) (Nat.not_le.mpr hlt)
  · simp only [Option.any_eq_true, decide_eq_true_eq, not_exists, not_and, Nat.not_lt] at h
    exact ⟨fun hok => ⟨h, hok⟩, fun hok => hok.2⟩

theorem readCapped_error (response : HttpResponse) (url : String) (err : ClientError)
    (h : readCapped response url = .error err) : err.IsBodyFailure := by
  unfold readCapped at h
  split_ifs at h with hl
  · obtain rfl := Except.error.inj h
    trivial
  · exact readChunks_error url response.broken 0 response.chunks err h

/-- A readable 2xx is a task or an undecodable success. -/
theorem readAndClassify_of_readable {response : HttpResponse} {now : DateTime} {url : String}
    (hs : isSuccess response.status = true) (hr : response.Readable) :
    (∃ task, readAndClassify response now url = .ok task) ∨
      ∃ message, readAndClassify response now url = .error (.undecodableSuccess url message) := by
  unfold readAndClassify classifyResponse
  rw [(readCapped_ok_iff response url).mpr hr, if_pos hs]
  cases response.task with
  | ok task => exact Or.inl ⟨task, rfl⟩
  | error message => exact Or.inr ⟨message, rfl⟩

/-- Any other response whose body cannot be read is a body failure, whatever its status. -/
theorem readAndClassify_of_not_readable {response : HttpResponse} {now : DateTime} {url : String}
    (hr : ¬ response.Readable) :
    ∃ err, readAndClassify response now url = .error err ∧ err.IsBodyFailure := by
  unfold readAndClassify
  cases h : readCapped response url with
  | error err => exact ⟨err, rfl, readCapped_error response url err h⟩
  | ok _ => exact absurd ((readCapped_ok_iff response url).mp h) hr

end Perchstation
