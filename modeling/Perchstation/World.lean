import Perchstation.Lib.FileMap
import Perchstation.Lib.Resumption
import Perchstation.Queue.Entry

/-!
# World — the requests a station makes and the answers it can get

Every function of the station with an effect is a program (`Act`) of requests: file-system calls,
clock readings, HTTP exchanges.  A request is one step: a process can be stopped between any two.

`Nominal` is the environment without faults: every file-system call does what it is asked if the
files are there, and answers `NotFound` if they are not.  It leaves open the order of a directory
listing, the clock and the server.  `Faulty` is a failing file-system call: any error, nothing
changed but the file being written.
-/

namespace Perchstation

open Resumption

/-- The contents of a file, as far as the queue can tell contents apart: bytes that `serde_json`
decodes to a sidecar are that sidecar, all others are themselves. -/
inductive Blob
  | sidecar (entry : ClipQueueEntry)
  | bytes (data : List UInt8)
  deriving DecidableEq

/-- `serde_json::from_slice::<ClipQueueEntry>`. -/
def Blob.decode : Blob → Option ClipQueueEntry
  | .sidecar entry => some entry
  | .bytes _ => none

/-- The length of the contents; that of a sidecar's text is left open. -/
def Blob.HasLen : Blob → UInt64 → Prop
  | .sidecar _, _ => True
  | .bytes data, n => n.toNat = data.length

abbrev Fs : Type := FileMap Path Blob

/-- A path holds one record. -/
theorem sidecar_unique {file : Option Blob} {e e' : ClipQueueEntry} (h : file = some (.sidecar e))
    (h' : file = some (.sidecar e')) : e = e' :=
  Blob.sidecar.inj (Option.some.inj (h.symm.trans h'))

/-- Every file has a length that a `u64` can hold. -/
def Measurable (fs : Fs) : Prop := ∀ p b, fs.get p = some b → ∃ n, b.HasLen n

theorem Measurable.del {fs : Fs} (h : Measurable fs) (p : Path) : Measurable (fs.del p) := by
  intro q b hb
  rw [FileMap.get_del] at hb
  split_ifs at hb
  exact h q b hb

theorem Measurable.put {fs : Fs} (h : Measurable fs) (p : Path) {b : Blob} (hb : ∃ n, b.HasLen n) :
    Measurable (fs.put p b) := by
  intro q b' hb'
  rw [FileMap.get_put] at hb'
  split_ifs at hb'
  · obtain rfl := Option.some.inj hb'
    exact hb
  · exact h q b' hb'

inductive Req
  | metadata (p : Path)
  | fileExists (p : Path)
  | rename (src dst : Path)
  | copy (src dst : Path)
  | removeFile (p : Path)
  | write (p : Path) (contents : Blob)
  | read (p : Path)
  | readDir (d : Dir)
  | createDirAll (d : Dir)
  | openFile (p : Path)
  | now
  | post (url : String) (file : Path) (fileName : String)
  | getUrl (url : String)
  | abort

@[reducible] def Rep : Req → Type
  | .metadata _ => Except IoError UInt64
  | .fileExists _ => Bool
  | .rename _ _ => Except IoError Unit
  | .copy _ _ => Except IoError Unit
  | .removeFile _ => Except IoError Unit
  | .write _ _ => Except IoError Unit
  | .read _ => Except IoError Blob
  | .readDir _ => Except IoError (List Path)
  | .createDirAll _ => Except IoError Unit
  | .openFile _ => Except IoError Unit
  | .now => DateTime
  | .post _ _ _ => Except String HttpResponse
  | .getUrl _ => Except String HttpResponse
  | .abort => Empty

abbrev Act (α : Type) : Type := Prog Req Rep α

/-! ## Requests as programs -/

def ask (r : Req) : Act (Rep r) := Prog.request r

/-- `fs::metadata(p).len()`. -/
def metadata (p : Path) : Act (Except IoError UInt64) := ask (.metadata p)
/-- `p.exists()`. -/
def fileExists (p : Path) : Act Bool := ask (.fileExists p)
def rename (src dst : Path) : Act (Except IoError Unit) := ask (.rename src dst)
def copy (src dst : Path) : Act (Except IoError Unit) := ask (.copy src dst)
def removeFile (p : Path) : Act (Except IoError Unit) := ask (.removeFile p)
def write (p : Path) (contents : Blob) : Act (Except IoError Unit) :=
  ask (.write p contents)
def read (p : Path) : Act (Except IoError Blob) := ask (.read p)
def readDir (d : Dir) : Act (Except IoError (List Path)) := ask (.readDir d)
def createDirAll (d : Dir) : Act (Except IoError Unit) := ask (.createDirAll d)
/-- `tokio::fs::File::open` and the `metadata` of the open file. -/
def openFile (p : Path) : Act (Except IoError Unit) := ask (.openFile p)
/-- A clock reading. -/
def now : Act DateTime := ask .now
/-- A multipart `POST` of a file. -/
def post (url : String) (file : Path) (fileName : String) : Act (Except String HttpResponse) :=
  ask (.post url file fileName)
def getUrl (url : String) : Act (Except String HttpResponse) := ask (.getUrl url)
/-- A panic: the program never goes on. -/
def abort (α : Type) : Act α := .ask .abort fun v => nomatch v

/-! ## The environments -/

/-- The answers without faults. -/
def Nominal : Env Req Rep Fs
  | fs, .metadata p, v, t => t = fs ∧
      match fs.get p with
      | none => v = .error .notFound
      | some b => ∃ n, b.HasLen n ∧ v = .ok n
  | fs, .fileExists p, v, t => v = (fs.get p).isSome ∧ t = fs
  | fs, .rename src dst, v, t =>
      match fs.get src with
      | none => v = .error .notFound ∧ t = fs
      | some b => v = .ok () ∧ t = (fs.del src).put dst b
  | fs, .copy src dst, v, t =>
      match fs.get src with
      | none => v = .error .notFound ∧ t = fs
      | some b => v = .ok () ∧ t = fs.put dst b
  | fs, .removeFile p, v, t =>
      match fs.get p with
      | none => v = .error .notFound ∧ t = fs
      | some _ => v = .ok () ∧ t = fs.del p
  | fs, .write p contents, v, t => v = .ok () ∧ t = fs.put p contents
  | fs, .read p, v, t => t = fs ∧
      match fs.get p with
      | none => v = .error .notFound
      | some b => v = .ok b
  | fs, .readDir d, v, t => t = fs ∧ ∃ l, fs.Lists (fun p => p.inDir d) l ∧ v = .ok l
  | fs, .createDirAll _, v, t => v = .ok () ∧ t = fs
  | fs, .openFile p, v, t => t = fs ∧
      match fs.get p with
      | none => v = .error .notFound
      | some _ => v = .ok ()
  | fs, .now, _, t => t = fs
  | fs, .post _ _ _, _, t => t = fs
  | fs, .getUrl _, _, t => t = fs
  | _, .abort, _, _ => False

/-- `Nominal` with the clock readings to come as part of the state. -/
def Clocked : Env Req Rep (Fs × List DateTime)
  | (fs, readings), .now, v, (t, readings') => t = fs ∧ readings = v :: readings'
  | (fs, readings), r, v, (t, readings') => Nominal fs r v t ∧ readings' = readings

/-- A failing file-system call: a file being written may be left with any contents. -/
def Faulty : Env Req Rep Fs
  | fs, .metadata _, v, t => (∃ e, v = .error e) ∧ t = fs
  | fs, .fileExists _, v, t => v = false ∧ t = fs
  | fs, .rename _ _, v, t => (∃ e, v = .error e) ∧ t = fs
  | fs, .copy _ dst, v, t => (∃ e, v = .error e) ∧ (t = fs ∨ ∃ b, t = fs.put dst b)
  | fs, .removeFile _, v, t => (∃ e, v = .error e) ∧ t = fs
  | fs, .write p _, v, t => (∃ e, v = .error e) ∧ (t = fs ∨ ∃ b, t = fs.put p b)
  | fs, .read _, v, t => (∃ e, v = .error e) ∧ t = fs
  | fs, .readDir _, v, t => (∃ e, v = .error e) ∧ t = fs
  | fs, .createDirAll _, v, t => (∃ e, v = .error e) ∧ t = fs
  | fs, .openFile _, v, t => (∃ e, v = .error e) ∧ t = fs
  | _, .now, _, _ => False
  | _, .post _ _ _, _, _ => False
  | _, .getUrl _, _, _ => False
  | _, .abort, _, _ => False

/-- The request `r` fails. -/
def FaultyAt (r : Req) : Env Req Rep Fs := fun fs r' v t => r' = r ∧ Faulty fs r' v t

/-- What a call does to the files, whether it fails or not. -/
inductive Changed (fs : Fs) : Req → Fs → Prop
  | same {r : Req} : Changed fs r fs
  | moved {src dst : Path} {b : Blob} : fs.get src = some b →
      Changed fs (.rename src dst) ((fs.del src).put dst b)
  | copied {src dst : Path} (b : Blob) : Changed fs (.copy src dst) (fs.put dst b)
  | removed {p : Path} : Changed fs (.removeFile p) (fs.del p)
  | written {p : Path} {contents : Blob} (b : Blob) : Changed fs (.write p contents) (fs.put p b)

theorem changed_of_nominal {fs t : Fs} {r : Req} {v : Rep r} (h : Nominal fs r v t) :
    Changed fs r t := by
  cases r with
  | rename src dst =>
    cases hb : fs.get src with
    | none =>
      simp only [Nominal, hb] at h
      exact h.2 ▸ .same
    | some b =>
      simp only [Nominal, hb] at h
      exact h.2 ▸ .moved hb
  | copy src dst =>
    cases hb : fs.get src with
    | none =>
      simp only [Nominal, hb] at h
      exact h.2 ▸ .same
    | some b =>
      simp only [Nominal, hb] at h
      exact h.2 ▸ .copied b
  | removeFile p =>
    cases hb : fs.get p with
    | none =>
      simp only [Nominal, hb] at h
      exact h.2 ▸ .same
    | some b =>
      simp only [Nominal, hb] at h
      exact h.2 ▸ .removed
  | write p contents =>
    obtain ⟨-, rfl⟩ := h
    exact .written contents
  | fileExists | createDirAll =>
    obtain ⟨-, rfl⟩ := h
    exact .same
  | metadata | read | readDir | openFile =>
    obtain ⟨rfl, -⟩ := h
    exact .same
  | now | post | getUrl =>
    obtain rfl := h
    exact .same
  | abort => exact h.elim

theorem changed_of_faulty {fs t : Fs} {r : Req} {v : Rep r} (h : Faulty fs r v t) :
    Changed fs r t := by
  cases r with
  | copy src dst =>
    rcases h with ⟨-, rfl | ⟨b, rfl⟩⟩
    · exact .same
    · exact .copied b
  | write p contents =>
    rcases h with ⟨-, rfl | ⟨b, rfl⟩⟩
    · exact .same
    · exact .written b
  | now | post | getUrl | abort => exact h.elim
  | _ =>
    obtain ⟨-, rfl⟩ := h
    exact .same

/-- Every call has an outcome without faults; the length of a file is left out. -/
theorem exists_nominal (fs : Fs) {r : Req} (hlen : ∀ p, r ≠ .metadata p) (habort : r ≠ .abort) :
    ∃ v t, Nominal fs r v t := by
  cases r with
  | metadata p => exact absurd rfl (hlen p)
  | fileExists p => exact ⟨_, fs, rfl, rfl⟩
  | rename src dst =>
    cases hb : fs.get src with
    | none => exact ⟨.error .notFound, fs, by simp [Nominal, hb]⟩
    | some b => exact ⟨.ok (), (fs.del src).put dst b, by simp [Nominal, hb]⟩
  | copy src dst =>
    cases hb : fs.get src with
    | none => exact ⟨.error .notFound, fs, by simp [Nominal, hb]⟩
    | some b => exact ⟨.ok (), fs.put dst b, by simp [Nominal, hb]⟩
  | removeFile p =>
    cases hb : fs.get p with
    | none => exact ⟨.error .notFound, fs, by simp [Nominal, hb]⟩
    | some b => exact ⟨.ok (), fs.del p, by simp [Nominal, hb]⟩
  | write p contents => exact ⟨.ok (), _, rfl, rfl⟩
  | read p =>
    cases hb : fs.get p with
    | none => exact ⟨.error .notFound, fs, rfl, by rw [hb]⟩
    | some b => exact ⟨.ok b, fs, rfl, by rw [hb]⟩
  | readDir d =>
    obtain ⟨l, hl⟩ := fs.exists_lists fun p => p.inDir d
    exact ⟨.ok l, fs, rfl, l, hl, rfl⟩
  | createDirAll d => exact ⟨.ok (), fs, rfl, rfl⟩
  | openFile p =>
    cases hb : fs.get p with
    | none => exact ⟨.error .notFound, fs, rfl, by rw [hb]⟩
    | some b => exact ⟨.ok (), fs, rfl, by rw [hb]⟩
  | now => exact ⟨DateTime.ofSecs 0 DateTime.epoch_inRange, fs, rfl⟩
  | post url file fileName => exact ⟨.error "", fs, rfl⟩
  | getUrl url => exact ⟨.error "", fs, rfl⟩
  | abort => exact absurd rfl habort

/-! ## Rules of the single requests -/

section Rules

variable {fs t : Fs} {env : Env Req Rep Fs}

theorem runs_ask {r : Req} {v : Rep r} : Runs env (ask r) fs v t ↔ env fs r v t := runs_request

@[simp] theorem runs_metadata {p : Path} {v : Except IoError UInt64} :
    Runs env (metadata p) fs v t ↔ env fs (.metadata p) v t := runs_ask (r := .metadata p)

@[simp] theorem runs_fileExists {p : Path} {v : Bool} :
    Runs env (fileExists p) fs v t ↔ env fs (.fileExists p) v t := runs_ask (r := .fileExists p)

@[simp] theorem runs_rename {src dst : Path} {v : Except IoError Unit} :
    Runs env (rename src dst) fs v t ↔ env fs (.rename src dst) v t :=
  runs_ask (r := .rename src dst)

@[simp] theorem runs_copy {src dst : Path} {v : Except IoError Unit} :
    Runs env (copy src dst) fs v t ↔ env fs (.copy src dst) v t := runs_ask (r := .copy src dst)

@[simp] theorem runs_removeFile {p : Path} {v : Except IoError Unit} :
    Runs env (removeFile p) fs v t ↔ env fs (.removeFile p) v t := runs_ask (r := .removeFile p)

@[simp] theorem runs_write {p : Path} {b : Blob} {v : Except IoError Unit} :
    Runs env (write p b) fs v t ↔ env fs (.write p b) v t := runs_ask (r := .write p b)

@[simp] theorem runs_read {p : Path} {v : Except IoError Blob} :
    Runs env (read p) fs v t ↔ env fs (.read p) v t := runs_ask (r := .read p)

@[simp] theorem runs_readDir {d : Dir} {v : Except IoError (List Path)} :
    Runs env (readDir d) fs v t ↔ env fs (.readDir d) v t := runs_ask (r := .readDir d)

@[simp] theorem runs_createDirAll {d : Dir} {v : Except IoError Unit} :
    Runs env (createDirAll d) fs v t ↔ env fs (.createDirAll d) v t :=
  runs_ask (r := .createDirAll d)

@[simp] theorem runs_openFile {p : Path} {v : Except IoError Unit} :
    Runs env (openFile p) fs v t ↔ env fs (.openFile p) v t := runs_ask (r := .openFile p)

@[simp] theorem runs_now {v : DateTime} : Runs env now fs v t ↔ env fs .now v t :=
  runs_ask (r := .now)

@[simp] theorem runs_post {url : String} {p : Path} {n : String} {v : Except String HttpResponse} :
    Runs env (post url p n) fs v t ↔ env fs (.post url p n) v t := runs_ask (r := .post url p n)

@[simp] theorem runs_getUrl {url : String} {v : Except String HttpResponse} :
    Runs env (getUrl url) fs v t ↔ env fs (.getUrl url) v t := runs_ask (r := .getUrl url)

@[simp] theorem runs_abort {α : Type} {a : α} : Runs env (abort α) fs a t ↔ False :=
  ⟨fun ⟨v, _⟩ => (nomatch v : False), False.elim⟩

theorem reaches_ask {r : Req} : Reaches env (ask r) fs t ↔ t = fs ∨ ∃ v, env fs r v t :=
  reaches_request

@[simp] theorem reaches_metadata {p : Path} :
    Reaches env (metadata p) fs t ↔ t = fs ∨ ∃ v, env fs (.metadata p) v t :=
  reaches_ask (r := .metadata p)

@[simp] theorem reaches_fileExists {p : Path} :
    Reaches env (fileExists p) fs t ↔ t = fs ∨ ∃ v, env fs (.fileExists p) v t :=
  reaches_ask (r := .fileExists p)

@[simp] theorem reaches_rename {src dst : Path} :
    Reaches env (rename src dst) fs t ↔ t = fs ∨ ∃ v, env fs (.rename src dst) v t :=
  reaches_ask (r := .rename src dst)

@[simp] theorem reaches_removeFile {p : Path} :
    Reaches env (removeFile p) fs t ↔ t = fs ∨ ∃ v, env fs (.removeFile p) v t :=
  reaches_ask (r := .removeFile p)

@[simp] theorem reaches_write {p : Path} {b : Blob} :
    Reaches env (write p b) fs t ↔ t = fs ∨ ∃ v, env fs (.write p b) v t :=
  reaches_ask (r := .write p b)

@[simp] theorem reaches_read {p : Path} :
    Reaches env (read p) fs t ↔ t = fs ∨ ∃ v, env fs (.read p) v t := reaches_ask (r := .read p)

@[simp] theorem reaches_readDir {d : Dir} :
    Reaches env (readDir d) fs t ↔ t = fs ∨ ∃ v, env fs (.readDir d) v t :=
  reaches_ask (r := .readDir d)

@[simp] theorem reaches_createDirAll {d : Dir} :
    Reaches env (createDirAll d) fs t ↔ t = fs ∨ ∃ v, env fs (.createDirAll d) v t :=
  reaches_ask (r := .createDirAll d)

@[simp] theorem reaches_now :
    Reaches env now fs t ↔ t = fs ∨ ∃ v, env fs .now v t := reaches_ask (r := .now)

@[simp] theorem reaches_abort {α : Type} : Reaches env (abort α) fs t ↔ t = fs :=
  ⟨fun h => h.resolve_right fun ⟨v, _⟩ => (nomatch v : False), Or.inl⟩

theorem nominal_of_clocked {s u : Fs × List DateTime} {r : Req} {v : Rep r}
    (h : Clocked s r v u) : Nominal s.1 r v u.1 := by
  cases r with
  | now => exact h.1
  | _ => exact h.1

/-- Whatever the clock shows, a run is a run without faults. -/
theorem runs_nominal {α : Type} {p : Act α} {a : α} {readings readings' : List DateTime}
    (h : Runs Clocked p (fs, readings) a (t, readings')) : Runs Nominal p fs a t :=
  Runs.map Prod.fst (fun _ _ _ _ => nominal_of_clocked) h

/-- Every run without faults is one for some clock readings. -/
theorem exists_clocked {α : Type} {p : Act α} {a : α} (rest : List DateTime)
    (h : Runs Nominal p fs a t) :
    ∃ readings, Runs Clocked p (fs, readings ++ rest) a (t, rest) := by
  induction p generalizing fs with
  | pure b =>
    obtain ⟨rfl, rfl⟩ := h
    exact ⟨[], rfl, rfl⟩
  | ask r k ih =>
    obtain ⟨v, u, hv, h⟩ := h
    obtain ⟨readings, hr⟩ := ih v h
    cases r with
    | now => exact ⟨v :: readings, v, (u, readings ++ rest), ⟨hv, rfl⟩, hr⟩
    | _ => exact ⟨readings, v, (u, readings ++ rest), ⟨hv, rfl⟩, hr⟩

theorem runs_now_clocked {readings readings' : List DateTime} {v : DateTime} :
    Runs Clocked now (fs, readings) v (t, readings') ↔ t = fs ∧ readings = v :: readings' :=
  runs_request (r := Req.now)

variable {bad : Env Req Rep Fs}

theorem runsOnce_ask {r : Req} {v : Rep r} : RunsOnce env bad (ask r) fs v t ↔ bad fs r v t :=
  runsOnce_request

@[simp] theorem runsOnce_fileExists {p : Path} {v : Bool} :
    RunsOnce env bad (fileExists p) fs v t ↔ bad fs (.fileExists p) v t :=
  runsOnce_ask (r := .fileExists p)

@[simp] theorem runsOnce_rename {src dst : Path} {v : Except IoError Unit} :
    RunsOnce env bad (rename src dst) fs v t ↔ bad fs (.rename src dst) v t :=
  runsOnce_ask (r := .rename src dst)

@[simp] theorem runsOnce_removeFile {p : Path} {v : Except IoError Unit} :
    RunsOnce env bad (removeFile p) fs v t ↔ bad fs (.removeFile p) v t :=
  runsOnce_ask (r := .removeFile p)

@[simp] theorem runsOnce_write {p : Path} {b : Blob} {v : Except IoError Unit} :
    RunsOnce env bad (write p b) fs v t ↔ bad fs (.write p b) v t := runsOnce_ask (r := .write p b)

end Rules

end Perchstation
