import Perchstation.Lib.FileMap
import Perchstation.Lib.Resumption
import Perchstation.Prelude

/-!
# Credentials on disk — the directories of an enrollment and the requests on them

`<data_dir>` has three directories an enrollment works with: `credentials/`, the staging directory
`credentials.tmp/` and the rotated one `credentials.old/`.  A directory is renamed as a whole and
removed file by file.  `Steady` is the environment without faults, `CredFaulty` that of a failing
request.
-/

namespace Perchstation

open Resumption

/-- The directories below `<data_dir>`. -/
inductive CredDir
  | credentials
  | staging
  | rotated
  deriving DecidableEq, Repr

/-- What `identity.json` records. -/
structure IdentityFile where
  stationId : Uuid
  enrolledAt : DateTime
  perchpubUrl : String

/-- The contents of a credential file, as far as its readers can tell contents apart: text that
`serde_json` decodes to an `IdentityFile` is that record, other text is itself, and the rest is not
UTF-8. -/
inductive CredBlob
  | identity (file : IdentityFile)
  | text (s : String)
  | binary (data : List UInt8)

/-- The files of one directory, by name. -/
abbrev Folder : Type := FileMap String CredBlob

/-- The directories that exist, with their files. -/
abbrev Disk : Type := FileMap CredDir Folder

/-- A path an `IdentityError` can name. -/
inductive CredPath
  | dataDir
  | folder (d : CredDir)
  | file (d : CredDir) (name : String)
  deriving DecidableEq, Repr

inductive CredReq
  | listFolder (d : CredDir)
  | removeFile (d : CredDir) (name : String)
  | removeFolder (d : CredDir)
  | createDataDir
  | createFolder (d : CredDir)
  | createNew (d : CredDir) (name : String)
  | writeAll (d : CredDir) (name : String) (contents : CredBlob)
  | syncFile (d : CredDir) (name : String)
  | syncFolder (d : CredDir)
  | syncDataDir
  | folderExists (d : CredDir)
  | renameFolder (src dst : CredDir)
  | readFile (d : CredDir) (name : String)

@[reducible] def CredRep : CredReq → Type
  | .listFolder _ => Except IoError (List String)
  | .removeFile _ _ => Except IoError Unit
  | .removeFolder _ => Except IoError Unit
  | .createDataDir => Except IoError Unit
  | .createFolder _ => Except IoError Unit
  | .createNew _ _ => Except IoError Unit
  | .writeAll _ _ _ => Except IoError Unit
  | .syncFile _ _ => Except IoError Unit
  | .syncFolder _ => Except IoError Unit
  | .syncDataDir => Except IoError Unit
  | .folderExists _ => Bool
  | .renameFolder _ _ => Except IoError Unit
  | .readFile _ _ => Except IoError CredBlob

abbrev CredAct (α : Type) : Type := Prog CredReq CredRep α

def askCred (r : CredReq) : CredAct (CredRep r) := Prog.request r

/-- `EEXIST`. -/
def alreadyExists : IoError := .other 17 "File exists"

/-- `ENOTEMPTY`. -/
def notEmpty : IoError := .other 39 "Directory not empty"

/-- The answers without faults. -/
def Steady : Env CredReq CredRep Disk
  | disk, .listFolder d, v, t => t = disk ∧
      match disk.get d with
      | none => v = .error .notFound
      | some folder => ∃ l, folder.Lists (fun _ => True) l ∧ v = .ok l
  | disk, .removeFile d name, v, t =>
      match disk.get d with
      | none => v = .error .notFound ∧ t = disk
      | some folder =>
        match folder.get name with
        | none => v = .error .notFound ∧ t = disk
        | some _ => v = .ok () ∧ t = disk.put d (folder.del name)
  | disk, .removeFolder d, v, t =>
      match disk.get d with
      | none => v = .error .notFound ∧ t = disk
      | some folder =>
        (folder = .empty ∧ v = .ok () ∧ t = disk.del d) ∨
          (folder ≠ .empty ∧ v = .error notEmpty ∧ t = disk)
  | disk, .createDataDir, v, t => v = .ok () ∧ t = disk
  | disk, .createFolder d, v, t =>
      match disk.get d with
      | none => v = .ok () ∧ t = disk.put d .empty
      | some _ => v = .error alreadyExists ∧ t = disk
  | disk, .createNew d name, v, t =>
      match disk.get d with
      | none => v = .error .notFound ∧ t = disk
      | some folder =>
        match folder.get name with
        | none => v = .ok () ∧ t = disk.put d (folder.put name (.text ""))
        | some _ => v = .error alreadyExists ∧ t = disk
  | disk, .writeAll d name contents, v, t =>
      match disk.get d with
      | none => v = .error .notFound ∧ t = disk
      | some folder => v = .ok () ∧ t = disk.put d (folder.put name contents)
  | disk, .syncFile _ _, v, t => v = .ok () ∧ t = disk
  | disk, .syncFolder d, v, t => t = disk ∧
      match disk.get d with
      | none => v = .error .notFound
      | some _ => v = .ok ()
  | disk, .syncDataDir, v, t => v = .ok () ∧ t = disk
  | disk, .folderExists d, v, t => v = (disk.get d).isSome ∧ t = disk
  | disk, .renameFolder src dst, v, t =>
      match disk.get src with
      | none => v = .error .notFound ∧ t = disk
      | some folder =>
        (disk.get dst = none ∨ disk.get dst = some .empty) ∧ v = .ok () ∧
            t = (disk.del src).put dst folder ∨
          (¬ (disk.get dst = none ∨ disk.get dst = some .empty) ∧ v = .error notEmpty ∧ t = disk)
  | disk, .readFile d name, v, t => t = disk ∧
      match disk.get d with
      | none => v = .error .notFound
      | some folder =>
        match folder.get name with
        | none => v = .error .notFound
        | some b => v = .ok b

/-- A failing request: a file being written may be left with any contents. -/
def CredFaulty : Env CredReq CredRep Disk
  | disk, .listFolder _, v, t => (∃ e, v = .error e) ∧ t = disk
  | disk, .removeFile _ _, v, t => (∃ e, v = .error e) ∧ t = disk
  | disk, .removeFolder _, v, t => (∃ e, v = .error e) ∧ t = disk
  | disk, .createDataDir, v, t => (∃ e, v = .error e) ∧ t = disk
  | disk, .createFolder _, v, t => (∃ e, v = .error e) ∧ t = disk
  | disk, .createNew _ _, v, t => (∃ e, v = .error e) ∧ t = disk
  | disk, .writeAll d name _, v, t => (∃ e, v = .error e) ∧
      (t = disk ∨ ∃ folder b, disk.get d = some folder ∧ t = disk.put d (folder.put name b))
  | disk, .syncFile _ _, v, t => (∃ e, v = .error e) ∧ t = disk
  | disk, .syncFolder _, v, t => (∃ e, v = .error e) ∧ t = disk
  | disk, .syncDataDir, v, t => (∃ e, v = .error e) ∧ t = disk
  | disk, .folderExists _, v, t => v = false ∧ t = disk
  | disk, .renameFolder _ _, v, t => (∃ e, v = .error e) ∧ t = disk
  | disk, .readFile _ _, v, t => (∃ e, v = .error e) ∧ t = disk

/-- The answers of a disk that may fail at any time. -/
def Loose : Env CredReq CredRep Disk := fun disk r v t => Steady disk r v t ∨ CredFaulty disk r v t

/-! ## Requests leave other directories alone -/

/-- The only directories a request can change. -/
def CredReq.Touches : CredReq → CredDir → Prop
  | .removeFile d _, d' => d' = d
  | .removeFolder d, d' => d' = d
  | .createFolder d, d' => d' = d
  | .createNew d _, d' => d' = d
  | .writeAll d _ _, d' => d' = d
  | .renameFolder src dst, d' => d' = src ∨ d' = dst
  | _, _ => False

theorem get_of_steady {disk t : Disk} {r : CredReq} {v : CredRep r} {d : CredDir}
    (h : Steady disk r v t) (hd : ¬ r.Touches d) : t.get d = disk.get d := by
  cases r <;> simp only [Steady, CredReq.Touches, not_or] at h hd
  case removeFile a name =>
    split at h
    · rw [h.2]
    · split at h
      · rw [h.2]
      · rw [h.2, FileMap.get_put, if_neg hd]
  case removeFolder a =>
    split at h
    · rw [h.2]
    · rcases h with ⟨-, -, rfl⟩ | ⟨-, -, rfl⟩
      · rw [FileMap.get_del, if_neg hd]
      · rfl
  case createFolder a =>
    split at h
    · rw [h.2, FileMap.get_put, if_neg hd]
    · rw [h.2]
  case createNew a name =>
    split at h
    · rw [h.2]
    · split at h
      · rw [h.2, FileMap.get_put, if_neg hd]
      · rw [h.2]
  case writeAll a name b =>
    split at h
    · rw [h.2]
    · rw [h.2, FileMap.get_put, if_neg hd]
  case renameFolder src dst =>
    split at h
    · rw [h.2]
    · rcases h with ⟨-, -, rfl⟩ | ⟨-, -, rfl⟩
      · rw [FileMap.get_put, if_neg hd.2, FileMap.get_del, if_neg hd.1]
      · rfl
  all_goals first | rw [h.1] | rw [h.2]

theorem get_of_credFaulty {disk t : Disk} {r : CredReq} {v : CredRep r} {d : CredDir}
    (h : CredFaulty disk r v t) (hd : ¬ r.Touches d) : t.get d = disk.get d := by
  cases r <;> simp only [CredFaulty, CredReq.Touches, not_or] at h hd
  case writeAll a name b =>
    rcases h.2 with rfl | ⟨folder, b', -, rfl⟩
    · rfl
    · rw [FileMap.get_put, if_neg hd]
  all_goals rw [h.2]

theorem get_of_loose {disk t : Disk} {r : CredReq} {v : CredRep r} {d : CredDir}
    (h : Loose disk r v t) (hd : ¬ r.Touches d) : t.get d = disk.get d :=
  h.elim (get_of_steady · hd) (get_of_credFaulty · hd)

/-! ## Requests that succeed -/

section Success

variable {disk t : Disk} {d src dst : CredDir} {name : String} {b : CredBlob}

theorem createFolder_ok (h : Loose disk (.createFolder d) (.ok ()) t) : t = disk.put d .empty := by
  rcases h with h | ⟨⟨e, h⟩, -⟩
  · simp only [Steady] at h
    split at h
    · exact h.2
    · cases h.1
  · cases h

theorem createNew_ok (h : Loose disk (.createNew d name) (.ok ()) t) :
    ∃ folder, disk.get d = some folder ∧ t = disk.put d (folder.put name (.text "")) := by
  rcases h with h | ⟨⟨e, h⟩, -⟩
  · simp only [Steady] at h
    split at h
    · cases h.1
    · next folder hd =>
      split at h
      · exact ⟨folder, hd, h.2⟩
      · cases h.1
  · cases h

theorem writeAll_ok (h : Loose disk (.writeAll d name b) (.ok ()) t) :
    ∃ folder, disk.get d = some folder ∧ t = disk.put d (folder.put name b) := by
  rcases h with h | ⟨⟨e, h⟩, -⟩
  · simp only [Steady] at h
    split at h
    · cases h.1
    · next folder hd => exact ⟨folder, hd, h.2⟩
  · cases h

theorem renameFolder_ok (h : Loose disk (.renameFolder src dst) (.ok ()) t) :
    ∃ folder, disk.get src = some folder ∧ t = (disk.del src).put dst folder := by
  rcases h with h | ⟨⟨e, h⟩, -⟩
  · simp only [Steady] at h
    split at h
    · cases h.1
    · next folder hd =>
      rcases h with ⟨-, -, h⟩ | ⟨-, h, -⟩
      · exact ⟨folder, hd, h⟩
      · cases h
  · cases h

/-- A rename that fails leaves the disk as it is. -/
theorem renameFolder_error {e : IoError} (h : Loose disk (.renameFolder src dst) (.error e) t) :
    t = disk := by
  rcases h with h | h
  · simp only [Steady] at h
    split at h
    · exact h.2
    · rcases h with ⟨-, h, -⟩ | ⟨-, -, h⟩
      · cases h
      · exact h
  · exact h.2

/-- Without faults a directory is renamed to a name that is free. -/
theorem renameFolder_free {folder : Folder} {v : Except IoError Unit}
    (hsrc : disk.get src = some folder) (hdst : disk.get dst = none)
    (h : Steady disk (.renameFolder src dst) v t) : v = .ok () ∧ t = (disk.del src).put dst folder := by
  simp only [Steady, hsrc, hdst] at h
  rcases h with ⟨-, hv, ht⟩ | ⟨hne, -⟩
  · exact ⟨hv, ht⟩
  · exact absurd (Or.inl trivial) hne

end Success

end Perchstation
