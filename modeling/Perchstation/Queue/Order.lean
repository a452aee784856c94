import Mathlib.Data.Prod.Lex
import Perchstation.Lib.Sorting
import Perchstation.Queue.Policy

/-!
# Queue order — what the scans and the eviction policy sort by

Sidecars are picked by file name, candidates are evicted by `(captured_at, clip_id)`.  Either order
is one on keys, so a listing of files with different keys is sorted in one way only.
-/

namespace Perchstation.QueueStore

open Sorting

/-- `sort_key`: `(captured_at, clip_id)`. -/
def sortKey (e : EvictableEntry) : DateTime ×ₗ ClipId := toLex (e.entry.capturedAt, e.entry.clipId)

theorem sortKeyLe_iff (a b : EvictableEntry) : sortKeyLe a b = true ↔ sortKey a ≤ sortKey b := by
  rw [sortKey, sortKey, Prod.Lex.toLex_le_toLex, sortKeyLe, decide_eq_true_eq]

theorem sortByKey_eq_of_perm {es es' : List EvictableEntry} (h : Increasing sortKey es)
    (hperm : es'.Perm es) : sortByKey es' = es :=
  insertionSort_eq_of_perm sortKeyLe_iff h hperm

theorem sortPaths_eq_of_perm {ps ps' : List Path} (h : Increasing Path.fileName ps)
    (hperm : ps'.Perm ps) : sortPaths ps' = ps :=
  insertionSort_eq_of_perm (fun _ _ => Iff.rfl) h hperm

end Perchstation.QueueStore
