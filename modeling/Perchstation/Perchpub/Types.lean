import Perchstation.Prelude

/-!
# Perchpub types — classify tasks, HTTP responses, client errors

An HTTP response carries its body as the sizes of the chunks it arrives in, what `serde_json` makes
of the whole body, and the body's lossy text.  The `Retry-After` header is given by what it parses
to.
-/

namespace Perchstation

/-- Lifecycle status of a classification task; `unknown` is any status string not modelled here. -/
inductive ClassifyTaskStatus
  | prepared
  | queued
  | processing
  | success
  | failed
  | unknown
  deriving DecidableEq, Repr

/-- `true` when no further perchpub-side transitions are possible. -/
def ClassifyTaskStatus.isTerminal : ClassifyTaskStatus → Bool
  | .success | .failed => true
  | _ => false

/-- The fields of perchpub's answer the station uses. -/
structure ClassifyTaskPublic where
  id : Uuid
  status : ClassifyTaskStatus
  deriving DecidableEq, Repr

/-- The `Retry-After` header of a response, by what it parses to. -/
inductive RetryAfterHeader
  | absent
  | deltaSeconds (secs : UInt64)
  | httpDate (date : DateTime)
  | unparseable

/-- A response whose status line and headers have arrived; `broken` is the error the body stream
breaks off with, `none` when it ends cleanly. -/
structure HttpResponse where
  status : UInt16
  retryAfter : RetryAfterHeader
  contentLength : Option UInt64
  chunks : List ℕ
  broken : Option String
  text : String
  task : Except String ClassifyTaskPublic

inductive ClientError
  | credentialIo (path : String) (source : IoError)
  | tlsConfig (message : String)
  | invalidUrl (url message : String)
  | outboundDisallowed (actual expected : String)
  | network (url message : String)
  | http (url : String) (status : UInt16) (message : String) (retryAfter : Option StdDuration)
  | decode (url message : String)
  /-- A 2xx whose body does not decode: perchpub has the clip already. -/
  | undecodableSuccess (url message : String)
  | clipOpen (path : String) (source : IoError)

/-- The `Display` form. -/
def ClientError.display : ClientError → String
  | .credentialIo path source =>
    "could not read credential file `" ++ path ++ "`: " ++ source.display
  | .tlsConfig message => "could not build mTLS client: " ++ message
  | .invalidUrl url message =>
    "configured perchpub_url `" ++ url ++ "` is not a valid URL: " ++ message
  | .outboundDisallowed actual expected =>
    "refused outbound request to `" ++ actual ++
      "` (does not match configured perchpub_url authority `" ++ expected ++ "`)"
  | .network url message => "network error talking to `" ++ url ++ "`: " ++ message
  | .http url status message _ =>
    "perchpub returned HTTP " ++ toString status.toNat ++ " for `" ++ url ++ "`: " ++ message
  | .decode url message => "could not decode response from `" ++ url ++ "`: " ++ message
  | .undecodableSuccess url message =>
    "perchpub returned an undecodable 2xx body from `" ++ url ++ "`: " ++ message
  | .clipOpen path source => "could not open clip file `" ++ path ++ "`: " ++ source.display

end Perchstation
