import Perchstation.Observability.Redaction
import Perchstation.Prelude

/-!
# Session — the decoded enrollment QR frame (`enrollment/mod.rs`)

The image, the QR reader, the JSON decoder and the UUID parser are the parameter `QrLibrary`.
-/

namespace Perchstation

/-- `QrPayload`; `expires_at` is accepted and ignored. -/
structure QrPayload where
  sessionId : Text
  authToken : Text
  caChainPem : Text

/-- What `image`, `rqrr`, `serde_json` and `uuid` do for the decoder. -/
structure QrLibrary (Frame : Type) where
  width : Frame → UInt32
  height : Frame → UInt32
  /-- The text of the first grid that is detected, if there is one. -/
  decodeGrid : Frame → Option (Except String Text)
  fromStr : Text → Except String QrPayload
  parseUuid : Text → Except String Uuid

structure EnrollmentSessionMaterial where
  sessionId : Uuid
  authToken : Text
  caChainPem : Text
  decodedAt : DateTime

inductive QrDecodeError
  | noCode
  | notUtf8 (message : String)
  | notJson (message : String)
  | missingField (field : String)
  | badField (field message : String)
  | frameTooLarge (width height max : UInt32)

/-- `MAX_QR_IMAGE_DIM`. -/
def maxQrImageDim : UInt32 := 8192

/-- `decode_enrollment_session`, with the process's registry of secrets and the clock's reading. -/
def decodeEnrollmentSession {Frame : Type} (lib : QrLibrary Frame) (registry : RedactionRegistry)
    (image : Frame) (now : DateTime) :
    Except QrDecodeError EnrollmentSessionMaterial × RedactionRegistry :=
  if maxQrImageDim < lib.width image ∨ maxQrImageDim < lib.height image then
    (.error (.frameTooLarge (lib.width image) (lib.height image) maxQrImageDim), registry)
  else
    match lib.decodeGrid image with
    | none => (.error .noCode, registry)
    | some (.error message) => (.error (.notUtf8 message), registry)
    | some (.ok text) =>
      match lib.fromStr text with
      | .error message => (.error (.notJson message), registry)
      | .ok payload =>
        if payload.authToken = [] then (.error (.missingField "auth_token"), registry)
        else if payload.caChainPem = [] then (.error (.missingField "ca_chain_pem"), registry)
        else
          match lib.parseUuid payload.sessionId with
          | .error message => (.error (.badField "session_id" message), registry)
          | .ok sessionId =>
            (.ok ⟨sessionId, payload.authToken, payload.caChainPem, now⟩,
              registry.register payload.authToken)

/-- The token of a session that is accepted is not empty, and is registered. -/
theorem authToken_of_decodeEnrollmentSession {Frame : Type} {lib : QrLibrary Frame}
    {before after : RedactionRegistry} {image : Frame} {now : DateTime}
    {material : EnrollmentSessionMaterial}
    (h : decodeEnrollmentSession lib before image now = (.ok material, after)) :
    material.authToken ≠ [] ∧ material.authToken ∈ after.secrets := by
  unfold decodeEnrollmentSession at h
  split at h
  · simp at h
  · split at h
    · simp at h
    · simp at h
    · split at h
      · simp at h
      · split_ifs at h with htoken hchain
        · simp at h
        · simp at h
        · split at h
          · simp at h
          · obtain ⟨hm, rfl⟩ := Prod.mk.inj h
            obtain rfl := Except.ok.inj hm
            exact ⟨htoken, RedactionRegistry.mem_register htoken⟩

end Perchstation
