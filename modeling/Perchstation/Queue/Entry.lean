import Perchstation.Perchpub.Types

/-!
# Queue entries — the on-disk layout, sidecar records and queue errors

`<data_dir>/queue/` has four directories of files `<clip-id>.<ext>`.  A path keeps its directory,
stem and extension apart; the four extensions are the only ones the store ever writes, and no one of
them is a suffix of another, so paths and file names correspond.

The store joins a clip-id to a directory unchecked.  Here the result is the file of that stem in that
directory, which is so for a clip-id that is one path component and not empty: `./b` would name the
files of `b`, and a file named `.json` or `.mp4` has no extension, where the path of the empty stem
has one.
-/

namespace Perchstation

abbrev ClipId : Type := String

/-- The directories below `<data_dir>/queue/`. -/
inductive Dir
  | pending
  | inflight
  | delivered
  | corrupt
  deriving DecidableEq, Repr

/-- The extensions of the queue's files; `path.extension()` is `json` for `json` only. -/
inductive Ext
  | mp4
  | mp4Tmp
  | json
  | jsonTmp
  deriving DecidableEq, Repr

/-- A file of the queue, one of its directories, or a file outside it that the capture side hands
over. -/
inductive Path
  | source (name : String)
  | directory (dir : Dir)
  | queue (dir : Dir) (stem : ClipId) (ext : Ext)
  deriving DecidableEq, Repr

def Ext.suffix : Ext → String
  | .mp4 => ".mp4"
  | .mp4Tmp => ".mp4.tmp"
  | .json => ".json"
  | .jsonTmp => ".json.tmp"

def Dir.name : Dir → String
  | .pending => "pending"
  | .inflight => "inflight"
  | .delivered => "delivered"
  | .corrupt => "corrupt"

namespace Path

/-- `file_name`. -/
def fileName : Path → String
  | .source name => name
  | .directory dir => dir.name
  | .queue _ stem ext => stem ++ ext.suffix

/-- `display`, below the data directory. -/
def display : Path → String
  | .source name => name
  | .directory dir => "queue/" ++ dir.name
  | .queue dir stem ext => "queue/" ++ dir.name ++ "/" ++ stem ++ ext.suffix

/-- `path.extension() == ext`. -/
def hasExt (ext : Ext) : Path → Bool
  | .queue _ _ e => e = ext
  | _ => false

/-- `with_extension`. -/
def withExtension (ext : Ext) : Path → Path
  | .queue dir stem _ => .queue dir stem ext
  | p => p

/-- `dir.join(path.file_name())`. -/
def moveTo (d : Dir) : Path → Path
  | .queue _ stem ext => .queue d stem ext
  | p => p

/-- `file_stem`. -/
def fileStem : Path → ClipId
  | .source name => name
  | .directory dir => dir.name
  | .queue _ stem _ => stem

/-- The path lies in the directory `d` of the queue. -/
def inDir (d : Dir) : Path → Bool
  | .queue dir _ _ => dir = d
  | _ => false

/-- `dir.join(QueueStore::media_name(clip_id))`, for a clip-id that is one path component. -/
abbrev media (d : Dir) (c : ClipId) : Path := .queue d c .mp4

/-- `dir.join(QueueStore::sidecar_name(clip_id))`, for a clip-id that is one path component. -/
abbrev sidecar (d : Dir) (c : ClipId) : Path := .queue d c .json

end Path

/-- Terminal disposition of an entry that has reached `delivered/`. -/
inductive Outcome
  | delivered
  | undeliverable
  deriving DecidableEq, Repr

/-- Failure context of the last attempt. -/
structure LastError where
  kind : String
  status : Option UInt16
  message : String
  deriving DecidableEq

/-- The sidecar record of a clip. -/
structure ClipQueueEntry where
  clipId : ClipId
  capturedAt : DateTime
  enqueuedAt : DateTime
  byteSize : UInt64
  attempts : UInt32
  firstAttemptAt : Option DateTime
  lastAttemptAt : Option DateTime
  lastError : Option LastError
  nextAttemptAfter : Option DateTime
  outcome : Option Outcome
  classifyTaskId : Option Uuid
  deliveredAt : Option DateTime
  lastClassifyStatus : Option ClassifyTaskStatus
  classifyLostAt : Option DateTime
  deriving DecidableEq

namespace ClipQueueEntry

/-- `ClipQueueEntry::new`. -/
def new (clipId : ClipId) (capturedAt enqueuedAt : DateTime) (byteSize : UInt64) :
    ClipQueueEntry where
  clipId := clipId
  capturedAt := capturedAt
  enqueuedAt := enqueuedAt
  byteSize := byteSize
  attempts := 0
  firstAttemptAt := none
  lastAttemptAt := none
  lastError := none
  nextAttemptAfter := none
  outcome := none
  classifyTaskId := none
  deliveredAt := none
  lastClassifyStatus := none
  classifyLostAt := none

/-- `true` once `outcome` has been set. -/
def isTerminal (e : ClipQueueEntry) : Bool := e.outcome.isSome

end ClipQueueEntry

inductive QueueError
  | io (path : Path) (source : IoError)
  | deserialise (path : Path)
  | missingMedia (clipId : ClipId)
  | diskFull (path : Path)
  deriving DecidableEq

inductive InboxError
  | queueFull (currentClips maxClips : UInt32) (currentBytes maxBytes : UInt64)
  | queue (error : QueueError)
  deriving DecidableEq

end Perchstation
