import Perchstation.Queue.Store

/-!
# Queue policy — census, eviction and pruning (`queue/policy.rs`)

`applyPolicy` takes a census of the three queue directories, compares it with the ceilings and
evicts or refuses.  The byte total of the candidates is an iterator `sum`, which traps on overflow
in a debug build and wraps in a release build; the build profile is a parameter.
-/

namespace Perchstation

inductive EvictionPolicy
  | dropOldestUndelivered
  | refuseNew
  deriving DecidableEq, Repr

/-- Bounds and eviction strategy of a queue. -/
structure QueuePolicy where
  maxClips : UInt32
  maxBytes : UInt64
  eviction : EvictionPolicy

/-- The cargo build profile, as far as arithmetic depends on it. -/
inductive Profile
  | debug
  | release
  deriving DecidableEq, Repr

inductive EvictionReason
  | maxClipsExceeded
  | maxBytesExceeded
  | bothExceeded
  deriving DecidableEq, Repr

/-- One eviction performed by `applyPolicy`. -/
structure EvictionRecord where
  clipId : ClipId
  reason : EvictionReason
  remainingClips : UInt32
  remainingBytes : UInt64
  deriving DecidableEq

/-- The evictions performed, whatever the verdict, and the verdict. -/
structure PolicyOutcome where
  evictions : List EvictionRecord
  result : Except InboxError Unit

inductive EvictableLocation
  | deliveredUndeliverable
  | pending
  deriving DecidableEq, Repr

/-- One evictable entry: where it lives and its sidecar. -/
structure EvictableEntry where
  location : EvictableLocation
  entry : ClipQueueEntry

namespace EvictableEntry

/-- Bytes the entry's media occupies on disk; an Undeliverable entry has none. -/
def onDiskBytes (e : EvictableEntry) : UInt64 :=
  match e.location with
  | .pending => e.entry.byteSize
  | .deliveredUndeliverable => 0

/-- The directory the entry lives in. -/
def dir (e : EvictableEntry) : Dir :=
  match e.location with
  | .deliveredUndeliverable => .delivered
  | .pending => .pending

end EvictableEntry

/-- A snapshot of the queue: the part eviction cannot free, and the candidates oldest-first. -/
structure Census where
  floorClips : UInt32
  floorBytes : UInt64
  candidates : List EvictableEntry

namespace QueueStore

/-! ## Census -/

/-- The scan of `read_sidecars` over a directory listing. -/
def readSidecarsLoop : List Path → Act (Except QueueError (List ClipQueueEntry))
  | [] => return .ok []
  | path :: rest => do
    if path.hasExt .json then
      match ← readSidecar path with
      | .ok sidecar =>
        match ← readSidecarsLoop rest with
        | .ok out => return .ok (sidecar :: out)
        | .error err => return .error err
      -- the sidecar vanished mid-census
      | .error (.io _ .notFound) => readSidecarsLoop rest
      | .error err => return .error err
    else
      readSidecarsLoop rest

def readSidecars (dir : Dir) : Act (Except QueueError (List ClipQueueEntry)) := do
  match ← readDir dir with
  | .error source => return .error (.io (.directory dir) source)
  | .ok paths => readSidecarsLoop paths

/-- `a.sort_key() <= b.sort_key()` on `(captured_at, clip_id)`. -/
def sortKeyLe (a b : EvictableEntry) : Bool :=
  a.entry.capturedAt < b.entry.capturedAt ∨
    a.entry.capturedAt = b.entry.capturedAt ∧ a.entry.clipId ≤ b.entry.clipId

/-- `sort_by_key(|e| sort_key(&e.entry))`, stable. -/
def sortByKey (es : List EvictableEntry) : List EvictableEntry :=
  es.insertionSort fun a b => sortKeyLe a b

/-- The floor's slots: one for each entry, saturating. -/
def addSlots (clips : UInt32) (entries : List ClipQueueEntry) : UInt32 :=
  entries.foldl (fun n _ => saturatingAdd32 n 1) clips

/-- The floor's bytes, saturating. -/
def addBytes (bytes : UInt64) (entries : List ClipQueueEntry) : UInt64 :=
  entries.foldl (fun n e => saturatingAdd64 n e.byteSize) bytes

/-- The entry is Undeliverable, hence evictable from `delivered/`. -/
def isUndeliverable (e : ClipQueueEntry) : Bool := e.outcome = some .undeliverable

/-- The census made of the sidecars of the three directories. -/
def censusOf (inflight delivered pending : List ClipQueueEntry) : Census where
  floorClips := addSlots (addSlots 0 inflight) (delivered.filter fun e => !isUndeliverable e)
  floorBytes := addBytes 0 inflight
  candidates :=
    sortByKey ((delivered.filter isUndeliverable).map
      (EvictableEntry.mk .deliveredUndeliverable)) ++
    sortByKey (pending.map (EvictableEntry.mk .pending))

def takeCensus : Act (Except QueueError Census) := do
  match ← readSidecars .inflight with
  | .error err => return .error err
  | .ok inflight =>
    match ← readSidecars .delivered with
    | .error err => return .error err
    | .ok delivered =>
      match ← readSidecars .pending with
      | .error err => return .error err
      | .ok pending => return .ok (censusOf inflight delivered pending)

/-- `Iterator::sum::<u64>`: it traps on overflow in a debug build and wraps in a release build. -/
def sumBytes (profile : Profile) : List UInt64 → Option UInt64
  | [] => some 0
  | b :: bs =>
    match sumBytes profile bs with
    | none => none
    | some total =>
      if b.toNat + total.toNat < 2 ^ 64 ∨ profile = .release then some (b + total) else none

/-- The clip slots and bytes the whole queue occupies; `none` is a panic. -/
def censusTotals (profile : Profile) (census : Census) : Option (UInt32 × UInt64) :=
  let candidateClips : UInt32 :=
    if census.candidates.length < 2 ^ 32 then UInt32.ofNat census.candidates.length else 4294967295
  match sumBytes profile (census.candidates.map EvictableEntry.onDiskBytes) with
  | none => none
  | some candidateBytes =>
    some (saturatingAdd32 census.floorClips candidateClips,
      saturatingAdd64 census.floorBytes candidateBytes)

/-! ## Eviction -/

/-- Delete the sidecar of the candidate and its media, if any. -/
def evict (candidate : EvictableEntry) : Act (Except QueueError Unit) := do
  let clipId := candidate.entry.clipId
  match ← removeIfExists (Path.media candidate.dir clipId) with
  | .error err => return .error err
  | .ok () => removeIfExists (Path.sidecar candidate.dir clipId)

/-- One more clip of `incoming` bytes would breach a ceiling. -/
def breaches (policy : QueuePolicy) (incoming : UInt64) (clips : UInt32) (bytes : UInt64) : Bool :=
  policy.maxClips < saturatingAdd32 clips 1 ∨ policy.maxBytes < saturatingAdd64 bytes incoming

/-- The ceiling(s) an eviction is attributed to. -/
def evictionReason (policy : QueuePolicy) (incoming : UInt64) (clips : UInt32) (bytes : UInt64) :
    EvictionReason :=
  match decide (policy.maxClips < saturatingAdd32 clips 1),
    decide (policy.maxBytes < saturatingAdd64 bytes incoming) with
  | true, true => .bothExceeded
  | false, true => .maxBytesExceeded
  | _, _ => .maxClipsExceeded

/-- The eviction loop, with the evictions made so far. -/
def evictLoop (policy : QueuePolicy) (incoming : UInt64) (queueFull : InboxError) (clips : UInt32)
    (bytes : UInt64) (evictions : List EvictionRecord) : List EvictableEntry → Act PolicyOutcome
  | [] =>
    if breaches policy incoming clips bytes then return ⟨evictions, .error queueFull⟩
    else return ⟨evictions, .ok ()⟩
  | candidate :: rest => do
    if breaches policy incoming clips bytes then
      let reason := evictionReason policy incoming clips bytes
      match ← evict candidate with
      | .error err => return ⟨evictions, .error (.queue err)⟩
      | .ok () =>
        let clips' := saturatingSub32 clips 1
        let bytes' := saturatingSub64 bytes candidate.onDiskBytes
        evictLoop policy incoming queueFull clips' bytes'
          (evictions ++ [⟨candidate.entry.clipId, reason, clips', bytes'⟩]) rest
    else
      return ⟨evictions, .ok ()⟩

/-- The verdict on a census: nothing to do, refuse, or evict. -/
def enforce (policy : QueuePolicy) (incoming : UInt64) (census : Census) (totalClips : UInt32)
    (totalBytes : UInt64) : Act PolicyOutcome :=
  let queueFull := InboxError.queueFull totalClips policy.maxClips totalBytes policy.maxBytes
  if breaches policy incoming totalClips totalBytes then
    match policy.eviction with
    | .refuseNew => return ⟨[], .error queueFull⟩
    | .dropOldestUndelivered =>
      -- refuse before evicting if the floor alone breaches a ceiling
      if breaches policy incoming census.floorClips census.floorBytes then
        return ⟨[], .error queueFull⟩
      else
        evictLoop policy incoming queueFull totalClips totalBytes [] census.candidates
  else
    return ⟨[], .ok ()⟩

/-- Enforce the policy against the current queue state. -/
def applyPolicy (profile : Profile) (policy : QueuePolicy) (incoming : UInt64) :
    Act PolicyOutcome := do
  match ← takeCensus with
  | .error err => return ⟨[], .error (.queue err)⟩
  | .ok census =>
    match censusTotals profile census with
    | none => abort PolicyOutcome
    | some (totalClips, totalBytes) => enforce policy incoming census totalClips totalBytes

/-- `PolicyInbox::submit` over `StoreInbox`, with the clip-id the store is about to generate. -/
def submit (profile : Profile) (policy : QueuePolicy) (clipId : ClipId) (clipPath : Path)
    (clipMeta : ClipMeta) : Act (List EvictionRecord × Except InboxError ClipQueueEntry) := do
  let len ← metadata clipPath
  let incoming := match len with
    | .ok n => n
    | .error _ => 0
  let outcome ← applyPolicy profile policy incoming
  match outcome.result with
  | .error err => return (outcome.evictions, .error err)
  | .ok () =>
    match ← enqueueWithId clipId clipPath clipMeta with
    | .error err => return (outcome.evictions, .error (.queue err))
    | .ok entry => return (outcome.evictions, .ok entry)

/-! ## Pruning -/

/-- A successful upload whose classify task is finished, delivered before `before`. -/
def isPrunable (e : ClipQueueEntry) (before : DateTime) : Bool :=
  if e.outcome = some .delivered then
    let classifyDone := e.classifyLostAt.isSome || e.lastClassifyStatus.any (·.isTerminal)
    classifyDone && e.deliveredAt.any (· < before)
  else
    false

/-- The loop of `prune_delivered` over a directory listing. -/
def pruneLoop (before : DateTime) : List Path → Act (List ClipId)
  | [] => return []
  | path :: rest => do
    if path.hasExt .json then
      match ← readSidecar path with
      | .error _ => pruneLoop before rest
      | .ok sidecar =>
        if isPrunable sidecar before then
          match ← removeIfExists path with
          | .error _ => pruneLoop before rest
          | .ok () =>
            let _ ← removeFile (path.withExtension .mp4)
            let pruned ← pruneLoop before rest
            return sidecar.clipId :: pruned
        else
          pruneLoop before rest
    else
      pruneLoop before rest

/-- Age out `delivered/` sidecars that are done with; returns the pruned clip-ids. -/
def pruneDelivered (before : DateTime) : Act (Except QueueError (List ClipId)) := do
  match ← readDir .delivered with
  | .error source => return .error (.io (.directory .delivered) source)
  | .ok paths =>
    let pruned ← pruneLoop before paths
    return .ok pruned

end QueueStore

end Perchstation
