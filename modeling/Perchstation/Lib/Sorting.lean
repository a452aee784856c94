import Mathlib.Data.List.Sort

/-!
# Sorting — insertion sort by a key

A relation that compares keys in a linear order sorts a list in one way only where the keys are
different.
-/

namespace Sorting

variable {α β : Type} [LinearOrder β] {key : α → β} {r : α → α → Prop} [DecidableRel r]
  {l l' : List α}

/-- The list is in the strict order of its keys. -/
def Increasing (key : α → β) (l : List α) : Prop := l.Pairwise fun a b => key a < key b

theorem Increasing.nodup_map (h : Increasing key l) : (l.map key).Nodup :=
  List.pairwise_map.mpr (h.imp ne_of_lt)

theorem Increasing.eq_of_key_eq (h : Increasing key l) {a b : α} (ha : a ∈ l) (hb : b ∈ l)
    (heq : key a = key b) : a = b :=
  List.inj_on_of_nodup_map h.nodup_map ha hb heq

/-- A list in order with one value in it at most. -/
theorem Increasing.eq_toList {o : Option α} (h : Increasing key l)
    (hmem : ∀ a, a ∈ l ↔ o = some a) : l = o.toList := by
  cases o with
  | none =>
    refine List.eq_nil_iff_forall_not_mem.mpr fun a ha => ?_
    cases (hmem a).mp ha
  | some b =>
    have hperm : l.Perm [b] := by
      rw [List.perm_ext_iff_of_nodup h.nodup_map.of_map (List.nodup_singleton b)]
      intro a
      rw [hmem, List.mem_singleton, Option.some_inj]
      exact eq_comm
    exact List.perm_singleton.mp hperm

theorem pairwise_insertionSort (hr : ∀ a b, r a b ↔ key a ≤ key b) (l : List α) :
    (l.insertionSort r).Pairwise r := by
  have htotal : Std.Total r := ⟨fun a b => by rw [hr, hr]; exact le_total _ _⟩
  have htrans : IsTrans α r := ⟨fun a b c => by rw [hr, hr, hr]; exact le_trans⟩
  exact List.pairwise_insertionSort r l

/-- Sorting finds the one arrangement that is in order. -/
theorem insertionSort_eq_of_perm (hr : ∀ a b, r a b ↔ key a ≤ key b) (h : Increasing key l)
    (hperm : l'.Perm l) : l'.insertionSort r = l := by
  refine List.Perm.eq_of_pairwise (fun a b ha hb hab hba => ?_) (pairwise_insertionSort hr l')
    (h.imp fun hlt => (hr _ _).mpr hlt.le) ((List.perm_insertionSort r l').trans hperm)
  exact h.eq_of_key_eq (hperm.mem_iff.mp ((List.mem_insertionSort r).mp ha)) hb
    (le_antisymm ((hr _ _).mp hab) ((hr _ _).mp hba))

/-- With different keys the sorted list is in the strict order of its keys. -/
theorem increasing_insertionSort (hr : ∀ a b, r a b ↔ key a ≤ key b)
    (hinj : (l.map key).Nodup) : Increasing key (l.insertionSort r) := by
  have hnd : ((l.insertionSort r).map key).Nodup :=
    ((List.perm_insertionSort r l).map key).nodup_iff.mpr hinj
  have hle := pairwise_insertionSort hr l
  rw [List.Nodup, List.pairwise_map] at hnd
  exact (hle.and hnd).imp fun ⟨hab, hne⟩ => lt_of_le_of_ne ((hr _ _).mp hab) hne

/-- What is found in a list in some order is found by going through the list in some order. -/
theorem exists_perm_filterMap {γ : Type} [DecidableEq γ] {f : γ → Option α} {ps : List γ}
    (hperm : l.Perm (ps.filterMap f)) : ∃ qs : List γ, qs.Perm ps ∧ qs.filterMap f = l := by
  induction l generalizing ps with
  | nil => exact ⟨ps, List.Perm.refl ps, hperm.symm.eq_nil⟩
  | cons a rest ih =>
    obtain ⟨p, hp, ha⟩ := List.mem_filterMap.mp (hperm.subset List.mem_cons_self)
    have herase := List.perm_cons_erase hp
    have hrest : (a :: rest).Perm (a :: (ps.erase p).filterMap f) := by
      have hcons := List.Perm.filterMap f herase
      rw [List.filterMap_cons_some ha] at hcons
      exact hperm.trans hcons
    obtain ⟨qs, hqs, rfl⟩ := ih hrest.cons_inv
    exact ⟨p :: qs, (hqs.cons p).trans herase.symm, List.filterMap_cons_some ha⟩

end Sorting
