import Mathlib.Data.Finmap
import Mathlib.Data.Set.Finite.Basic

/-!
# FileMap — a finite store of named files

`FileMap κ β` holds finitely many files of contents `β` under names `κ`.  Two stores with the same
contents under every name are equal (`FileMap.ext`).  `Lists m S l` says that the list `l`
enumerates the names of `S` that exist in `m`, each once, in any order: what a directory scan
returns.
-/

/-- A finite store of files with contents `β` under names `κ`. -/
structure FileMap (κ β : Type) where
  files : Finmap (fun _ : κ => β)

namespace FileMap

variable {κ β : Type} [DecidableEq κ] {m : FileMap κ β} {p q : κ} {b : β}

/-- The store without files. -/
def empty : FileMap κ β := ⟨∅⟩

/-- The file under the name `p`, if there is one. -/
def get (m : FileMap κ β) (p : κ) : Option β := m.files.lookup p

/-- Create or replace the file `p`. -/
def put (m : FileMap κ β) (p : κ) (b : β) : FileMap κ β := ⟨m.files.insert p b⟩

/-- Remove the file `p`. -/
def del (m : FileMap κ β) (p : κ) : FileMap κ β := ⟨m.files.erase p⟩

@[ext] theorem ext {m n : FileMap κ β} (h : ∀ p, m.get p = n.get p) : m = n := by
  obtain ⟨m⟩ := m
  obtain ⟨n⟩ := n
  exact congrArg FileMap.mk (Finmap.ext_lookup h)

@[simp] theorem get_empty (p : κ) : (empty : FileMap κ β).get p = none := Finmap.lookup_empty p

theorem get_put (m : FileMap κ β) (p q : κ) (b : β) :
    (m.put p b).get q = if q = p then some b else m.get q := by
  unfold get put
  split_ifs with h
  · subst h
    exact Finmap.lookup_insert m.files
  · exact Finmap.lookup_insert_of_ne m.files h

theorem get_del (m : FileMap κ β) (p q : κ) :
    (m.del p).get q = if q = p then none else m.get q := by
  unfold get del
  split_ifs with h
  · subst h
    exact Finmap.lookup_erase q m.files
  · exact Finmap.lookup_erase_ne h

theorem put_put (m : FileMap κ β) (p : κ) (b c : β) : (m.put p b).put p c = m.put p c := by
  ext q
  simp only [get_put]
  split_ifs <;> rfl

/-- Removing a file that is not there leaves the store as it is. -/
theorem del_of_get_none (h : m.get p = none) : m.del p = m := by
  ext1 q
  rw [get_del]
  split_ifs with hq
  · rw [hq, h]
  · rfl

/-- Remove every file whose name is in the list. -/
def delAll (m : FileMap κ β) : List κ → FileMap κ β
  | [] => m
  | p :: ps => (m.del p).delAll ps

theorem get_delAll (m : FileMap κ β) (ps : List κ) (q : κ) :
    (m.delAll ps).get q = if q ∈ ps then none else m.get q := by
  induction ps generalizing m with
  | nil => simp [delAll]
  | cons p ps ih =>
    rw [delAll, ih, get_del]
    by_cases h : q ∈ ps <;> by_cases hp : q = p <;> simp [h, hp]

/-- The names of the files. -/
def names (m : FileMap κ β) : Finset κ := m.files.keys

theorem mem_names : p ∈ m.names ↔ m.get p ≠ none := by
  rw [names, Finmap.mem_keys, ← Option.isSome_iff_ne_none]
  exact Finmap.lookup_isSome.symm

theorem names_del_subset (m : FileMap κ β) (p : κ) : (m.del p).names ⊆ m.names := by
  intro q hq
  rw [mem_names, get_del] at hq
  split_ifs at hq
  · exact (hq rfl).elim
  · exact mem_names.mpr hq

section Map

variable {γ : Type} (f : β → γ)

/-- The files under the same names, with `f` of their contents. -/
def map (m : FileMap κ β) : FileMap κ γ :=
  ⟨Finmap.keysLookupEquiv.symm ⟨(m.files.keys, fun p => (m.files.lookup p).map f), fun p => by
    rw [Option.isSome_map, Finmap.lookup_isSome, Finmap.mem_keys]⟩⟩

theorem get_map (m : FileMap κ β) (p : κ) : (m.map f).get p = (m.get p).map f :=
  Finmap.keysLookupEquiv_symm_apply_lookup _ p

theorem map_put (m : FileMap κ β) (p : κ) (b : β) : (m.put p b).map f = (m.map f).put p (f b) := by
  ext1 q
  rw [get_map, get_put, get_put, get_map]
  split_ifs <;> rfl

theorem map_del (m : FileMap κ β) (p : κ) : (m.del p).map f = (m.map f).del p := by
  ext1 q
  rw [get_map, get_del, get_del, get_map]
  split_ifs <;> rfl

end Map

/-- `l` enumerates the names of `S` that exist in `m`, each once. -/
def Lists (m : FileMap κ β) (S : κ → Prop) (l : List κ) : Prop :=
  l.Nodup ∧ ∀ p, p ∈ l ↔ S p ∧ (m.get p).isSome

theorem Lists.nodup {S : κ → Prop} {l : List κ} (h : m.Lists S l) : l.Nodup := h.1

theorem Lists.mem {S : κ → Prop} {l : List κ} (h : m.Lists S l) :
    p ∈ l ↔ S p ∧ (m.get p).isSome := h.2 p

theorem Lists.map {γ : Type} {S : κ → Prop} {l : List κ} (h : m.Lists S l) (f : β → γ) :
    (m.map f).Lists S l := by
  refine ⟨h.1, fun p => (h.2 p).trans ?_⟩
  rw [get_map, Option.isSome_map]

/-- Every part of a store can be listed. -/
theorem exists_lists (m : FileMap κ β) (S : κ → Prop) : ∃ l, m.Lists S l := by
  classical
  refine ⟨(m.files.keys.filter S).toList, Finset.nodup_toList _, fun p => ?_⟩
  rw [Finset.mem_toList, Finset.mem_filter, Finmap.mem_keys, and_comm]
  exact and_congr_right fun _ => Finmap.lookup_isSome.symm

/-- Two listings of the same names are permutations of each other. -/
theorem Lists.perm {S : κ → Prop} {l l' : List κ} (h : m.Lists S l) (h' : m.Lists S l') :
    l.Perm l' :=
  (List.perm_ext_iff_of_nodup h.1 h'.1).mpr fun p => (h.2 p).trans (h'.2 p).symm

end FileMap
