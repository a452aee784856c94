import Perchstation.Accepted
import Perchstation.Admission
import Perchstation.Attempts
import Perchstation.Backoff
import Perchstation.Capture.History
import Perchstation.Capture.RateLimit
import Perchstation.Capture.Status
import Perchstation.Causes
import Perchstation.CensusBytes
import Perchstation.ClipIds
import Perchstation.ClipOrder
import Perchstation.Corruption
import Perchstation.Daemon.Pace
import Perchstation.Enrollment.Freshness
import Perchstation.Enrollment.Outcome
import Perchstation.Failure
import Perchstation.Identity.Expiry
import Perchstation.Identity.FailedSave
import Perchstation.Identity.KeySurvival
import Perchstation.Leftovers
import Perchstation.Observability.JsonLine
import Perchstation.Observability.Redaction
import Perchstation.Perchpub.ClientChain
import Perchstation.PolicySpec
import Perchstation.Progress
import Perchstation.Provenance
import Perchstation.Race.Bound
import Perchstation.Race.Snapshot
import Perchstation.Reclaim
import Perchstation.Recovery
import Perchstation.RetryTimes
import Perchstation.Serve.Ready
import Perchstation.Sidecar.Bytes
import Perchstation.Skipping
import Perchstation.TimeBounds
