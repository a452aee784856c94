import Perchstation.Provenance
import Perchstation.Sidecar.Reader
import Perchstation.Sidecar.Writes

/-!
# Bytes — a station over files of bytes

`Intact` and `CutShort` are the file system with the bytes of every file: a record is written as its
JSON text, `read` gives what `serde_json` makes of the bytes, and a write or a copy that fails leaves
any part of what it was writing, from the beginning on.

The queue's view of such files (`view`) makes every answer one of `Nominal` or `Torn`, so that what
holds of the station over records holds of the one over bytes.
-/

namespace Perchstation

open Interleaving Resumption QueueStore

/-- The files, byte by byte. -/
abbrev ByteFs : Type := FileMap Path (List UInt8)

section Files

variable (forms : TextForms) (fromSlice : List UInt8 → Except String ClipQueueEntry)

/-- What the queue takes the bytes for. -/
def blobOf (data : List UInt8) : Blob :=
  match fromSlice data with
  | .ok e => .sidecar e
  | .error _ => .bytes data

/-- The files as the queue sees them. -/
def view (fs : ByteFs) : Fs := fs.map (blobOf fromSlice)

/-- The bytes of what is written into the queue. -/
def textOf : Blob → List UInt8
  | .sidecar e => sidecarBytes forms e
  | .bytes data => data

/-- The bytes a write leaves: into the queue the text, outside it whatever the camera makes of it. -/
inductive Leaves : Path → Blob → List UInt8 → Prop
  | footage (name : String) (data : List UInt8) : Leaves (.source name) (blobOf fromSlice data) data
  | text {p : Path} (b : Blob) : (∀ name, p ≠ .source name) → Leaves p b (textOf forms b)

/-- The answers without faults. -/
def Intact : Env Req Rep ByteFs
  | fs, .metadata p, v, t => t = fs ∧
      match fs.get p with
      | none => v = .error .notFound
      | some data => ∃ n : UInt64, n.toNat = data.length ∧ v = .ok n
  | fs, .fileExists p, v, t => v = (fs.get p).isSome ∧ t = fs
  | fs, .rename src dst, v, t =>
      match fs.get src with
      | none => v = .error .notFound ∧ t = fs
      | some data => v = .ok () ∧ t = (fs.del src).put dst data
  | fs, .copy src dst, v, t =>
      match fs.get src with
      | none => v = .error .notFound ∧ t = fs
      | some data => v = .ok () ∧ t = fs.put dst data
  | fs, .removeFile p, v, t =>
      match fs.get p with
      | none => v = .error .notFound ∧ t = fs
      | some _ => v = .ok () ∧ t = fs.del p
  | fs, .write p contents, v, t =>
      ∃ data, Leaves forms fromSlice p contents data ∧ v = .ok () ∧ t = fs.put p data
  | fs, .read p, v, t => t = fs ∧
      match fs.get p with
      | none => v = .error .notFound
      | some data => v = .ok (blobOf fromSlice data)
  | fs, .readDir d, v, t => t = fs ∧ ∃ l, fs.Lists (fun p => p.inDir d) l ∧ v = .ok l
  | fs, .createDirAll _, v, t => v = .ok () ∧ t = fs
  | fs, .openFile p, v, t => t = fs ∧
      match fs.get p with
      | none => v = .error .notFound
      | some _ => v = .ok ()
  | fs, .now, _, t => t = fs
  | fs, .post _ _ _, _, t => t = fs
  | fs, .getUrl _, _, t => t = fs
  | _, .abort, _, _ => False

/-- A failing call; what it was writing is cut off somewhere. -/
def CutShort : Env Req Rep ByteFs
  | fs, .metadata _, v, t => (∃ e, v = .error e) ∧ t = fs
  | fs, .fileExists _, v, t => v = false ∧ t = fs
  | fs, .rename _ _, v, t => (∃ e, v = .error e) ∧ t = fs
  | fs, .copy src dst, v, t => (∃ e, v = .error e) ∧
      (t = fs ∨ ∃ data cut, fs.get src = some data ∧ cut <+: data ∧ t = fs.put dst cut)
  | fs, .removeFile _, v, t => (∃ e, v = .error e) ∧ t = fs
  | fs, .write p contents, v, t => (∃ e, v = .error e) ∧
      (t = fs ∨ ∃ cut, (∀ name, p ≠ .source name) ∧ cut <+: textOf forms contents ∧ t = fs.put p cut)
  | fs, .read _, v, t => (∃ e, v = .error e) ∧ t = fs
  | fs, .readDir _, v, t => (∃ e, v = .error e) ∧ t = fs
  | fs, .createDirAll _, v, t => (∃ e, v = .error e) ∧ t = fs
  | fs, .openFile _, v, t => (∃ e, v = .error e) ∧ t = fs
  | _, .now, _, _ => False
  | _, .post _ _ _, _, _ => False
  | _, .getUrl _, _, _ => False
  | _, .abort, _, _ => False

end Files

/-! ## One request -/

section Requests

variable {forms : TextForms} {fromSlice : List UInt8 → Except String ClipQueueEntry} {fs t : ByteFs}
  {r : Req} {v : Rep r} {data : List UInt8} {e : ClipQueueEntry}

theorem blobOf_ok (h : fromSlice data = .ok e) : blobOf fromSlice data = .sidecar e := by
  rw [blobOf, h]

theorem blobOf_error {message : String} (h : fromSlice data = .error message) :
    blobOf fromSlice data = .bytes data := by
  rw [blobOf, h]

theorem blobOf_eq_sidecar_iff : blobOf fromSlice data = .sidecar e ↔ fromSlice data = .ok e := by
  cases h : fromSlice data with
  | ok e' => simp [blobOf_ok h]
  | error message => simp [blobOf_error h]

theorem hasLen_blobOf {n : UInt64} (h : n.toNat = data.length) : (blobOf fromSlice data).HasLen n := by
  cases hread : fromSlice data with
  | ok e =>
    rw [blobOf_ok hread]
    trivial
  | error message =>
    rw [blobOf_error hread]
    exact h

theorem get_view (fs : ByteFs) (p : Path) :
    (view fromSlice fs).get p = (fs.get p).map (blobOf fromSlice) := FileMap.get_map _ _ _

theorem view_put (fs : ByteFs) (p : Path) (data : List UInt8) :
    view fromSlice (fs.put p data) = (view fromSlice fs).put p (blobOf fromSlice data) :=
  FileMap.map_put _ _ _ _

theorem view_del (fs : ByteFs) (p : Path) : view fromSlice (fs.del p) = (view fromSlice fs).del p :=
  FileMap.map_del _ _ _

/-- What is left by a write is what was to be written. -/
theorem blobOf_of_leaves (hforms : forms.Faithful) (hread : Documented forms fromSlice) {p : Path}
    {b : Blob} (hr : (Req.write p b).WritesRecords) (h : Leaves forms fromSlice p b data) :
    blobOf fromSlice data = b := by
  cases h with
  | footage => rfl
  | text b hp =>
    cases b with
    | sidecar e => exact blobOf_ok (fromSlice_sidecarBytes hforms hread e)
    | bytes data =>
      obtain ⟨name, rfl⟩ := hr
      exact absurd rfl (hp name)

/-- The queue sees a record that is cut off as bytes that are none. -/
theorem record_of_cut (hforms : forms.Faithful) (hread : Documented forms fromSlice)
    {e' : ClipQueueEntry} (hcut : data <+: sidecarBytes forms e)
    (h : blobOf fromSlice data = .sidecar e') : e' = e := by
  rw [blobOf_eq_sidecar_iff] at h
  by_cases hwhole : data = sidecarBytes forms e
  · subst hwhole
    rw [fromSlice_sidecarBytes hforms hread e] at h
    exact (Except.ok.inj h).symm
  · obtain ⟨message, herror⟩ := refused_of_cut hread hcut hwhole
    rw [herror] at h
    cases h

theorem nominal_of_intact (hforms : forms.Faithful) (hread : Documented forms fromSlice)
    (hr : r.WritesRecords) (h : Intact forms fromSlice fs r v t) :
    Nominal (view fromSlice fs) r v (view fromSlice t) := by
  cases r with
  | metadata p =>
    obtain ⟨rfl, hv⟩ := h
    refine ⟨rfl, ?_⟩
    rw [get_view]
    cases hget : t.get p with
    | none =>
      rw [hget] at hv
      exact hv
    | some data =>
      rw [hget] at hv
      obtain ⟨n, hn, rfl⟩ := hv
      exact ⟨n, hasLen_blobOf hn, rfl⟩
  | fileExists p =>
    obtain ⟨rfl, rfl⟩ := h
    refine ⟨?_, rfl⟩
    rw [get_view, Option.isSome_map]
  | rename src dst =>
    cases hget : fs.get src with
    | none =>
      simp only [Intact, hget] at h
      obtain ⟨rfl, rfl⟩ := h
      simp [Nominal, get_view, hget]
    | some data =>
      simp only [Intact, hget] at h
      obtain ⟨rfl, rfl⟩ := h
      simp [Nominal, get_view, hget, view_put, view_del]
  | copy src dst =>
    cases hget : fs.get src with
    | none =>
      simp only [Intact, hget] at h
      obtain ⟨rfl, rfl⟩ := h
      simp [Nominal, get_view, hget]
    | some data =>
      simp only [Intact, hget] at h
      obtain ⟨rfl, rfl⟩ := h
      simp [Nominal, get_view, hget, view_put]
  | removeFile p =>
    cases hget : fs.get p with
    | none =>
      simp only [Intact, hget] at h
      obtain ⟨rfl, rfl⟩ := h
      simp [Nominal, get_view, hget]
    | some data =>
      simp only [Intact, hget] at h
      obtain ⟨rfl, rfl⟩ := h
      simp [Nominal, get_view, hget, view_del]
  | write p b =>
    -- what is written reads back as the record it came from
    obtain ⟨data, hleaves, rfl, rfl⟩ := h
    refine ⟨rfl, ?_⟩
    rw [view_put, blobOf_of_leaves hforms hread hr hleaves]
  | read p =>
    obtain ⟨rfl, hv⟩ := h
    refine ⟨rfl, ?_⟩
    rw [get_view]
    cases hget : t.get p with
    | none =>
      rw [hget] at hv
      exact hv
    | some data =>
      rw [hget] at hv
      exact hv
  | readDir d =>
    -- the view has the same names
    obtain ⟨rfl, l, hl, rfl⟩ := h
    exact ⟨rfl, l, hl.map _, rfl⟩
  | createDirAll d =>
    obtain ⟨rfl, rfl⟩ := h
    exact ⟨rfl, rfl⟩
  | openFile p =>
    obtain ⟨rfl, hv⟩ := h
    refine ⟨rfl, ?_⟩
    rw [get_view]
    cases hget : t.get p with
    | none =>
      rw [hget] at hv
      exact hv
    | some data =>
      rw [hget] at hv
      exact hv
  | now | post | getUrl =>
    obtain rfl := h
    rfl
  | abort => exact h.elim

theorem torn_of_cutShort (hforms : forms.Faithful) (hread : Documented forms fromSlice)
    (hr : r.WritesRecords) (h : CutShort forms fs r v t) :
    Torn (view fromSlice fs) r v (view fromSlice t) := by
  cases r with
  | copy src dst =>
    obtain ⟨herr, rfl | ⟨data, cut, -, -, rfl⟩⟩ := h
    · exact ⟨⟨herr, Or.inl rfl⟩, fun p e he => Or.inl he⟩
    · rw [view_put]
      refine ⟨⟨herr, Or.inr ⟨_, rfl⟩⟩, fun p e he => ?_⟩
      rw [FileMap.get_put] at he
      split_ifs at he with hp
      · exact Or.inr (Or.inr ⟨src, by rw [hp]⟩)
      · exact Or.inl he
  | write p b =>
    obtain ⟨herr, rfl | ⟨cut, hp, hcut, rfl⟩⟩ := h
    · exact ⟨⟨herr, Or.inl rfl⟩, fun p e he => Or.inl he⟩
    · rw [view_put]
      refine ⟨⟨herr, Or.inr ⟨_, rfl⟩⟩, fun q e he => ?_⟩
      rw [FileMap.get_put] at he
      split_ifs at he with hq
      · cases b with
        | sidecar e' =>
          obtain rfl := record_of_cut hforms hread hcut (Option.some.inj he)
          exact Or.inr (Or.inl (by rw [hq]))
        | bytes data =>
          obtain ⟨name, rfl⟩ := hr
          exact absurd rfl (hp name)
      · exact Or.inl he
  | now | post | getUrl | abort => exact h.elim
  | _ =>
    obtain ⟨herr, rfl⟩ := h
    exact ⟨⟨herr, rfl⟩, fun p e he => Or.inl he⟩

end Requests

/-! ## The station -/

/-- The answers over bytes, on record. -/
def WitnessedBytes (forms : TextForms) (fromSlice : List UInt8 → Except String ClipQueueEntry) :
    Env Req Rep (ByteFs × List Deed) := fun s r v t =>
  (Intact forms fromSlice s.1 r v t.1 ∨ CutShort forms s.1 r v t.1) ∧
    t.2 = s.2 ++ [⟨view fromSlice s.1, r, v⟩]

/-- The tasks over files of bytes. -/
abbrev ByteTasks : Type := Pool Req Rep (fun _ : Task => Unit) (ByteFs × List Deed)

namespace ByteTasks

def atRest (fs : ByteFs) : ByteTasks := ⟨fun _ => pure (), (fs, [])⟩

/-- One request of one task, the start of a task's next program, or a process stop. -/
abbrev Step (forms : TextForms) (fromSlice : List UInt8 → Except String ClipQueueEntry)
    (cfg : Config) : ByteTasks → Option (Move Task Rep) → ByteTasks → Prop :=
  LifeStep (fun _ => WitnessedBytes forms fromSlice)
    (fun i p s => Task.Launches cfg i p (view fromSlice s.1, s.2)) fun _ => ()

variable {forms : TextForms} {fromSlice : List UInt8 → Except String ClipQueueEntry} {cfg : Config}
  {fs₀ : ByteFs} {tr : List (Option (Move Task Rep) × ByteTasks)} {b : ByteTasks}

theorem within_of_launches {i : Task} {p : Act Unit} {s : Fs × List Deed}
    (h : Task.Launches cfg i p s) : Within Req.WritesRecords p := by
  have hforget : ∀ {α : Type} {q : Act α}, Within Req.WritesRecords q →
      Within Req.WritesRecords (forget q) := fun hq => hq.bind fun _ => within_pure _
  cases i with
  | boot =>
    obtain rfl := h
    exact hforget Req.WritesRecords.within_reconcileInflight
  | camera =>
    obtain ⟨name, b, rfl⟩ := h
    refine hforget (within_request ?_)
    cases b with
    | sidecar e => trivial
    | bytes data => exact ⟨name, rfl⟩
  | capture =>
    obtain ⟨policy, c, name, clipMeta, rfl⟩ := h
    exact hforget Req.WritesRecords.within_submit
  | delivery =>
    obtain rfl := h
    exact hforget Req.WritesRecords.within_tryOnce
  | classify =>
    rcases h with ⟨known, rfl⟩ | ⟨known, rfl⟩
    · exact hforget Req.WritesRecords.within_pollRound
    · exact hforget Req.WritesRecords.within_pruneRound

/-- A run over bytes is, as the queue sees it, a run over records. -/
theorem exec_view (hforms : forms.Faithful) (hread : Documented forms fromSlice)
    (h : Exec (Step forms fromSlice cfg) (atRest fs₀) tr b) :
    ∃ tr', Exec (Task.Step cfg) (Task.atRest (view fromSlice fs₀) []) tr'
      ⟨b.prog, (view fromSlice b.state.1, b.state.2)⟩ := by
  have hanswer : ∀ (_ : Task) s r v t, r.WritesRecords → WitnessedBytes forms fromSlice s r v t →
      Witnessed (view fromSlice s.1, s.2) r v (view fromSlice t.1, t.2) := by
    rintro - s r v t hr ⟨hanswer, hdeeds⟩
    exact ⟨hanswer.imp (nominal_of_intact hforms hread hr) (torn_of_cutShort hforms hread hr), hdeeds⟩
  have hlaunch : ∀ i p (s : ByteFs × List Deed), Task.Launches cfg i p (view fromSlice s.1, s.2) →
      Within Req.WritesRecords p ∧ Task.Launches cfg i p (view fromSlice s.1, s.2) :=
    fun _ _ _ hl => ⟨within_of_launches hl, hl⟩
  have hrest : ∀ i, Within Req.WritesRecords ((atRest fs₀).prog i) := fun _ => within_pure _
  exact (exec_mapLife _ hanswer hlaunch h hrest).2

end ByteTasks

section Results

variable {forms : TextForms} {fromSlice : List UInt8 → Except String ClipQueueEntry} {cfg : Config}
  {fs₀ : ByteFs} {tr : List (Option (Move Task Rep) × ByteTasks)} {b : ByteTasks}

/-- In every run over bytes, whatever calls fail and wherever they leave what they were writing, the
bytes under the name of a record are refused as JSON, or read as a record that names its own clip and
says of the upload and the classification only what perchpub has answered. -/
theorem bytes_say_what_happened (hforms : forms.Faithful) (hread : Documented forms fromSlice)
    (h₀ : ∀ d c x, fs₀.get (.queue d c x) = none)
    (h : Exec (ByteTasks.Step forms fromSlice cfg) (ByteTasks.atRest fs₀) tr b) {d : Dir} {c : ClipId}
    {x : Ext} {data : List UInt8} (hx : x.IsRecord) (hdata : b.state.1.get (.queue d c x) = some data) :
    (∃ message, fromSlice data = .error message) ∨
      ∃ e, fromSlice data = .ok e ∧ e.clipId = c ∧
        Sourced cfg.client cfg.showUuid (onRecord b.state.2) e := by
  cases hslice : fromSlice data with
  | error message => exact Or.inl ⟨message, rfl⟩
  | ok e =>
    obtain ⟨tr', hview⟩ := ByteTasks.exec_view hforms hread h
    have hempty : ∀ d c x, (view fromSlice fs₀).get (.queue d c x) = none := by
      intro d c x
      rw [get_view, h₀]
      rfl
    have hrecord : (view fromSlice b.state.1).get (.queue d c x) = some (.sidecar e) := by
      rw [get_view, hdata, Option.map_some, blobOf_ok hslice]
    obtain ⟨hid, hsourced⟩ := (Task.founded hempty hview).records d c x e hx hrecord
    exact Or.inr ⟨e, rfl, hid, hsourced⟩

end Results

/-! ### A torn record -/

namespace ByteTasks

/-- The answers over bytes. -/
def Answers (forms : TextForms) (fromSlice : List UInt8 → Except String ClipQueueEntry) :
    Env Req Rep ByteFs := fun fs r v t => Intact forms fromSlice fs r v t ∨ CutShort forms fs r v t

variable {forms : TextForms} {fromSlice : List UInt8 → Except String ClipQueueEntry} {cfg : Config}
  {fs t : ByteFs} {deeds : List Deed}

/-- A task that runs its program alone. -/
theorem exec_alone {i : Task} {α : Type} {q : Act α} {a : α}
    (hl : Task.Launches cfg i (forget q) (view fromSlice fs, deeds))
    (h : Runs (Answers forms fromSlice) q fs a t) :
    ∃ tr deeds', Exec (Step forms fromSlice cfg) ⟨fun _ => pure (), (fs, deeds)⟩ tr
      ⟨fun _ => pure (), (t, deeds')⟩ := by
  have hforget : Runs (Answers forms fromSlice) (forget q) fs () t :=
    (runs_bind _ _ _ _ _).mpr ⟨a, t, h, rfl, rfl⟩
  obtain ⟨deeds', hrun⟩ :
      ∃ deeds', Runs (WitnessedBytes forms fromSlice) (forget q) (fs, deeds) () (t, deeds') :=
    exists_recorded (fun fs => Deed.mk (view fromSlice fs)) (fun _ _ _ _ _ hv => ⟨hv, rfl⟩) hforget deeds
  have hexec : ∃ tr, Exec (Step forms fromSlice cfg) ⟨fun _ => pure (), (fs, deeds)⟩ tr
      ⟨fun _ => pure (), (t, deeds')⟩ := Interleaving.exec_alone hl hrun
  obtain ⟨tr, hexec⟩ := hexec
  exact ⟨tr, deeds', hexec⟩

/-- The camera has left one byte. -/
def filmed : ByteFs := FileMap.empty.put (.source "in.mp4") [0]

/-- The disk was full before the last byte of the first record. -/
noncomputable def tornRecord : List UInt8 := (sidecarBytes .rfc3339 earlyRecord).dropLast

/-- The clip is in `pending/`. -/
def placed : ByteFs := (filmed.del (.source "in.mp4")).put (.media .pending "c1") [0]

noncomputable def torn : ByteFs :=
  (placed.put (.queue .pending "c1" .jsonTmp) tornRecord).del (.media .pending "c1")

theorem get_filmed : filmed.get (.source "in.mp4") = some [0] := by simp [filmed, FileMap.get_put]

theorem lists_filmed (d : Dir) : filmed.Lists (fun p => p.inDir d) [] := by
  refine ⟨List.nodup_nil, fun p => ⟨fun hp => absurd hp List.not_mem_nil, ?_⟩⟩
  rintro ⟨hin, hsome⟩
  cases p with
  | queue d' c x => simp [filmed, FileMap.get_put] at hsome
  | _ => simp [Path.inDir] at hin

theorem runs_filmedLength :
    Runs (Answers .rfc3339 fromSlice) (metadata (.source "in.mp4")) filmed (.ok 1) filmed := by
  refine ⟨.ok 1, filmed, Or.inl ⟨rfl, ?_⟩, rfl, rfl⟩
  rw [get_filmed]
  exact ⟨1, rfl, rfl⟩

theorem runs_tornEnqueue : Runs (Answers .rfc3339 fromSlice)
    (enqueueWithId "c1" (.source "in.mp4") ⟨.ofSecs 0 DateTime.epoch_inRange⟩) filmed
    (.error (.diskFull (.queue .pending "c1" .jsonTmp))) torn := by
  have hrename : Answers .rfc3339 fromSlice filmed
      (.rename (.source "in.mp4") (.media .pending "c1")) (.ok ()) placed := by
    refine Or.inl ?_
    simp only [Intact, get_filmed]
    exact ⟨trivial, rfl⟩
  have hwrite : Answers .rfc3339 fromSlice placed
      (.write (.queue .pending "c1" .jsonTmp) (.sidecar earlyRecord)) (.error .storageFull)
      (placed.put (.queue .pending "c1" .jsonTmp) tornRecord) :=
    Or.inr ⟨⟨_, rfl⟩, Or.inr ⟨tornRecord, fun _ => by rintro ⟨⟩, List.dropLast_prefix _, rfl⟩⟩
  have hremove : Runs (Answers .rfc3339 fromSlice) (removeFile (.media .pending "c1"))
      (placed.put (.queue .pending "c1" .jsonTmp) tornRecord) (.ok ()) torn := by
    refine ⟨.ok (), torn, Or.inl ?_, rfl, rfl⟩
    simp [Intact, FileMap.get_put, placed, torn]
  have hplace : Runs (Answers .rfc3339 fromSlice)
      (placeMedia (.source "in.mp4") (.media .pending "c1") (.queue .pending "c1" .mp4Tmp)) filmed
      (.ok ()) placed := ⟨.ok (), placed, hrename, rfl, rfl⟩
  have hrecord : Runs (Answers .rfc3339 fromSlice)
      (writeSidecarAtomic (.sidecar .pending "c1") earlyRecord) placed
      (.error (.diskFull (.queue .pending "c1" .jsonTmp)))
      (placed.put (.queue .pending "c1" .jsonTmp) tornRecord) :=
    ⟨.error .storageFull, _, hwrite, rfl, rfl⟩
  have hnow : Runs (Answers .rfc3339 fromSlice) now placed (.ofSecs 0 DateTime.epoch_inRange) placed :=
    ⟨_, placed, Or.inl rfl, rfl, rfl⟩
  exact (runs_bind _ _ _ _ _).mpr ⟨.ok 1, filmed, runs_filmedLength,
    (runs_bind _ _ _ _ _).mpr ⟨.ok (), placed, hplace, (runs_bind _ _ _ _ _).mpr
      ⟨.ofSecs 0 DateTime.epoch_inRange, placed, hnow, (runs_bind _ _ _ _ _).mpr
        ⟨_, _, hrecord, (runs_bind _ _ _ _ _).mpr ⟨.ok (), torn, hremove, rfl, rfl⟩⟩⟩⟩⟩

theorem runs_tornSubmit : Runs (Answers .rfc3339 fromSlice)
    (submit .release ⟨10, 100, .refuseNew⟩ "c1" (.source "in.mp4")
      ⟨.ofSecs 0 DateTime.epoch_inRange⟩) filmed
    ([], .error (.queue (.diskFull (.queue .pending "c1" .jsonTmp)))) torn := by
  have hnone : ∀ d, Runs (Answers .rfc3339 fromSlice) (readSidecars d) filmed (.ok []) filmed :=
    fun d => ⟨.ok [], filmed, Or.inl ⟨rfl, [], lists_filmed d, rfl⟩, rfl, rfl⟩
  have hcensus : Runs (Answers .rfc3339 fromSlice) takeCensus filmed (.ok (censusOf [] [] [])) filmed :=
    (runs_bind _ _ _ _ _).mpr ⟨_, _, hnone .inflight, (runs_bind _ _ _ _ _).mpr
      ⟨_, _, hnone .delivered, (runs_bind _ _ _ _ _).mpr ⟨_, _, hnone .pending, rfl, rfl⟩⟩⟩
  have hpolicy : Runs (Answers .rfc3339 fromSlice) (applyPolicy .release ⟨10, 100, .refuseNew⟩ 1) filmed
      ⟨[], .ok ()⟩ filmed :=
    (runs_bind _ _ _ _ _).mpr ⟨_, _, hcensus, rfl, rfl⟩
  exact (runs_bind _ _ _ _ _).mpr ⟨.ok 1, filmed, runs_filmedLength,
    (runs_bind _ _ _ _ _).mpr ⟨⟨[], .ok ()⟩, filmed, hpolicy, (runs_bind _ _ _ _ _).mpr
      ⟨.error (.diskFull (.queue .pending "c1" .jsonTmp)), torn, runs_tornEnqueue, rfl, rfl⟩⟩⟩

/-- The camera leaves a clip, and the disk is full when the capture writes its record. -/
theorem exec_torn : ∃ tr deeds, Exec (Step .rfc3339 (leastReader .rfc3339) Config.plain) (atRest .empty)
    tr ⟨fun _ => pure (), (torn, deeds)⟩ := by
  have hcamera : Runs (Answers .rfc3339 (leastReader .rfc3339))
      (write (.source "in.mp4") (blobOf (leastReader .rfc3339) [0])) .empty (.ok ()) filmed :=
    ⟨.ok (), filmed, Or.inl ⟨[0], .footage _ _, rfl, rfl⟩, rfl, rfl⟩
  have hfilm : Task.Launches Config.plain .camera
      (forget (write (.source "in.mp4") (blobOf (leastReader .rfc3339) [0])))
      (view (leastReader .rfc3339) .empty, []) := ⟨_, _, rfl⟩
  obtain ⟨tr₁, deeds₁, h1⟩ := exec_alone hfilm hcamera
  have hsubmit : Task.Launches Config.plain .capture
      (forget (submit .release ⟨10, 100, .refuseNew⟩ "c1" (.source "in.mp4")
        ⟨.ofSecs 0 DateTime.epoch_inRange⟩)) (view (leastReader .rfc3339) filmed, deeds₁) :=
    ⟨_, _, _, _, rfl⟩
  obtain ⟨tr₂, deeds₂, h2⟩ := exec_alone hsubmit runs_tornSubmit
  exact ⟨_, deeds₂, h1.append h2⟩

end ByteTasks

/-- The torn record is none of a clip that was not recorded. -/
theorem bytes_say_what_happened_torn :
    (∃ message, leastReader .rfc3339 ByteTasks.tornRecord = .error message) ∨
      ∃ e, leastReader .rfc3339 ByteTasks.tornRecord = .ok e ∧ e.clipId = "c1" := by
  obtain ⟨tr, deeds, h⟩ := ByteTasks.exec_torn
  have hdata : ByteTasks.torn.get (.queue .pending "c1" .jsonTmp) = some ByteTasks.tornRecord := by
    simp [ByteTasks.torn, FileMap.get_put, FileMap.get_del]
  rcases bytes_say_what_happened TextForms.faithful_rfc3339 (documented_leastReader .rfc3339) (by simp) h
    (show Ext.jsonTmp.IsRecord from trivial) hdata with herror | ⟨e, hok, hid, -⟩
  · exact Or.inl herror
  · exact Or.inr ⟨e, hok, hid⟩

end Perchstation
