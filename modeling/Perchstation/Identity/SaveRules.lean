import Perchstation.Identity.Store

/-!
# Save rules — what a save does to the directories

Up to the swap a save works in `credentials.tmp/` and `credentials.old/` only.  A staging that
succeeds leaves the four new files in `credentials.tmp/`, whatever failed on the way; a swap that
fails leaves `credentials/` as it was; after the swap only `credentials.old/` changes.
-/

namespace Perchstation

open Resumption

namespace Identity

variable {pki : Pki} {opts : SaveOptions} {s t : Disk}

/-- The folder a save stages. -/
def staged (opts : SaveOptions) : Folder :=
  (((FileMap.empty.put stationCertFile opts.stationCertPem).put caChainFile opts.caChainPem).put
    stationKeyFile opts.stationKeyPem).put identityFile
      (.identity ⟨opts.stationId, opts.enrolledAt, opts.perchpubUrl⟩)

theorem get_staged (opts : SaveOptions) (name : String) : (staged opts).get name =
    if name = identityFile then some (.identity ⟨opts.stationId, opts.enrolledAt, opts.perchpubUrl⟩)
    else if name = stationKeyFile then some opts.stationKeyPem
    else if name = caChainFile then some opts.caChainPem
    else if name = stationCertFile then some opts.stationCertPem else none := by
  simp only [staged, FileMap.get_put, FileMap.get_empty]

/-! ## The requests of each part -/

section Requests

variable {P : CredReq → Prop} {d : CredDir}

theorem within_readToString {name : String} (h : P (.readFile d name)) :
    Within P (readToString d name) := by
  refine (within_request h).bind fun v => ?_
  split <;> exact within_pure _

theorem within_unlinkLoop (h : ∀ name, P (.removeFile d name)) (names : List String) :
    Within P (unlinkLoop d names) := by
  induction names with
  | nil => exact within_pure _
  | cons name rest ih =>
    refine (within_request (h name)).bind fun v => ?_
    split
    · exact ih
    · exact ih
    · exact within_pure _

theorem within_removeDirAll (hlist : P (.listFolder d)) (hfile : ∀ name, P (.removeFile d name))
    (hdir : P (.removeFolder d)) : Within P (removeDirAll d) := by
  refine (within_request hlist).bind fun v => ?_
  split
  · exact within_pure _
  · refine (within_unlinkLoop hfile _).bind fun v => ?_
    split
    · exact within_pure _
    · exact within_request hdir

theorem within_removeDirIfExists (hlist : P (.listFolder d))
    (hfile : ∀ name, P (.removeFile d name)) (hdir : P (.removeFolder d)) :
    Within P (removeDirIfExists d) := by
  refine (within_removeDirAll hlist hfile hdir).bind fun v => ?_
  split <;> exact within_pure _

theorem within_writeMode {name : String} {b : CredBlob} (hnew : P (.createNew d name))
    (hwrite : P (.writeAll d name b)) (hsync : P (.syncFile d name)) :
    Within P (writeMode d name b) := by
  refine (within_request hnew).bind fun v => ?_
  split
  · exact within_pure _
  · refine (within_request hwrite).bind fun v => ?_
    split
    · exact within_pure _
    · refine (within_request hsync).bind fun v => ?_
      split <;> exact within_pure _

end Requests

/-- The request leaves `credentials/` alone. -/
def SparesCredentials (r : CredReq) : Prop := ¬ r.Touches .credentials

theorem within_peekExistingStationId (P : CredReq → Prop)
    (h : P (.readFile .credentials identityFile)) : Within P peekExistingStationId := by
  refine (within_readToString h).bind fun v => ?_
  split
  · split <;> exact within_pure _
  · exact within_pure _
  · exact within_pure _

theorem within_refuse (opts : SaveOptions) : Within SparesCredentials (refuse opts) := by
  unfold refuse
  split_ifs
  · exact within_pure _
  · refine (within_peekExistingStationId _ id).bind fun v => ?_
    split <;> exact within_pure _

theorem within_stage (opts : SaveOptions) : Within SparesCredentials (stage opts) := by
  have hremove : ∀ d, d ≠ .credentials → Within SparesCredentials (removeDirIfExists d) :=
    fun d hd => within_removeDirIfExists id (fun _ => hd.symm) hd.symm
  have hwrite : ∀ name b, Within SparesCredentials (writeMode .staging name b) :=
    fun name b => within_writeMode (by rintro ⟨⟩) (by rintro ⟨⟩) id
  refine (hremove .staging (by decide)).bind fun v => ?_
  split
  · exact within_pure _
  refine (hremove .rotated (by decide)).bind fun v => ?_
  split
  · exact within_pure _
  refine (within_request (r := CredReq.createDataDir) id).bind fun v => ?_
  split
  · exact within_pure _
  refine (within_request (r := CredReq.createFolder .staging) (by rintro ⟨⟩)).bind fun v => ?_
  split
  · exact within_pure _
  refine (hwrite _ _).bind fun v => ?_
  split
  · exact within_pure _
  refine (hwrite _ _).bind fun v => ?_
  split
  · exact within_pure _
  refine (hwrite _ _).bind fun v => ?_
  split
  · exact within_pure _
  refine (hwrite _ _).bind fun v => ?_
  split
  · exact within_pure _
  refine (within_request (r := CredReq.syncFolder .staging) id).bind fun v => ?_
  split <;> exact within_pure _

theorem within_load (pki : Pki) : Within SparesCredentials (load pki) := by
  refine (within_readToString id).bind fun v => ?_
  split
  · exact within_pure _
  split
  · exact within_pure _
  refine (within_request (r := CredReq.readFile .credentials stationCertFile) id).bind fun v => ?_
  split
  · exact within_pure _
  split <;> exact within_pure _

theorem within_cleanup (credsExisted : Bool) : Within SparesCredentials (cleanup credsExisted) := by
  unfold cleanup
  split_ifs
  · refine (within_removeDirAll id (fun _ => ?_) ?_).bind fun _ => within_pure _
    · rintro ⟨⟩
    · rintro ⟨⟩
  · exact within_pure _

theorem within_settle (pki : Pki) (credsExisted : Bool) :
    Within SparesCredentials (settle pki credsExisted) := by
  refine (within_request (r := CredReq.syncDataDir) id).bind fun v => ?_
  split
  · exact within_pure _
  · exact (within_cleanup credsExisted).bind fun _ => within_load pki

theorem loose_of_steady {α : Type} {p : CredAct α} {a : α} (h : Runs Steady p s a t) :
    Runs Loose p s a t :=
  h.map id fun _ _ _ _ hr => Or.inl hr

/-- A run of requests that spare `credentials/`, whatever fails, leaves it as it is. -/
theorem credentials_of_runs {α : Type} {p : CredAct α} {a : α} (hp : Within SparesCredentials p)
    (h : Runs Loose p s a t) : t.get .credentials = s.get .credentials := by
  have hstep : ∀ u r v w, SparesCredentials r → Loose u r v w →
      u.get .credentials = s.get .credentials → w.get .credentials = s.get .credentials :=
    fun u r v w hr hw hu => (get_of_loose hw hr).trans hu
  exact hp.runs (I := fun u => u.get .credentials = s.get .credentials) hstep h rfl

theorem credentials_of_reaches {α : Type} {p : CredAct α} (hp : Within SparesCredentials p)
    (h : Reaches Steady p s t) : t.get .credentials = s.get .credentials := by
  have hstep : ∀ u r v w, SparesCredentials r → Steady u r v w →
      u.get .credentials = s.get .credentials → w.get .credentials = s.get .credentials :=
    fun u r v w hr hw hu => (get_of_steady hw hr).trans hu
  exact hp.reaches (I := fun u => u.get .credentials = s.get .credentials) hstep h rfl

/-! ## Staging -/

theorem staging_writeMode {d : CredDir} {name : String} {b : CredBlob} {folder : Folder}
    (hd : s.get d = some folder) (h : Runs Loose (writeMode d name b) s (.ok ()) t) :
    t.get d = some (folder.put name b) := by
  obtain ⟨⟨⟩, u, hnew, h⟩ := h.bind_ok fun _ => ⟨_, rfl⟩
  obtain ⟨⟨⟩, w, hwrite, h⟩ := h.bind_ok fun _ => ⟨_, rfl⟩
  obtain ⟨⟨⟩, x, hsync, h⟩ := h.bind_ok fun _ => ⟨_, rfl⟩
  obtain ⟨-, rfl⟩ := h
  obtain ⟨folder₁, h₁, rfl⟩ := createNew_ok (runs_request.mp hnew)
  obtain ⟨folder₂, h₂, rfl⟩ := writeAll_ok (runs_request.mp hwrite)
  have hx := get_of_loose (d := d) (runs_request.mp hsync) id
  have h₃ : folder₁ = folder := Option.some.inj (h₁.symm.trans hd)
  have h₄ : folder₂ = folder₁.put name (.text "") := by
    rw [FileMap.get_put, if_pos rfl] at h₂
    exact (Option.some.inj h₂).symm
  rw [hx, FileMap.get_put, if_pos rfl, h₄, h₃, FileMap.put_put]

/-- A staging that succeeds has staged the new files. -/
theorem staging_of_stage (h : Runs Loose (stage opts) s (.ok ()) t) :
    t.get .staging = some (staged opts) := by
  obtain ⟨⟨⟩, u₁, -, h⟩ := h.bind_ok fun _ => ⟨_, rfl⟩
  obtain ⟨⟨⟩, u₂, -, h⟩ := h.bind_ok fun _ => ⟨_, rfl⟩
  obtain ⟨⟨⟩, u₃, -, h⟩ := h.bind_ok fun _ => ⟨_, rfl⟩
  obtain ⟨⟨⟩, u₄, hcreate, h⟩ := h.bind_ok fun _ => ⟨_, rfl⟩
  obtain ⟨⟨⟩, u₅, hcert, h⟩ := h.bind_ok fun _ => ⟨_, rfl⟩
  obtain ⟨⟨⟩, u₆, hchain, h⟩ := h.bind_ok fun _ => ⟨_, rfl⟩
  obtain ⟨⟨⟩, u₇, hkey, h⟩ := h.bind_ok fun _ => ⟨_, rfl⟩
  obtain ⟨⟨⟩, u₈, hid, h⟩ := h.bind_ok fun _ => ⟨_, rfl⟩
  obtain ⟨⟨⟩, u₉, hsync, h⟩ := h.bind_ok fun _ => ⟨_, rfl⟩
  obtain ⟨-, rfl⟩ := h
  have h₄ : u₄.get .staging = some .empty := by
    rw [createFolder_ok (runs_request.mp hcreate), FileMap.get_put, if_pos rfl]
  have h₈ := staging_writeMode (staging_writeMode (staging_writeMode (staging_writeMode h₄ hcert)
    hchain) hkey) hid
  exact (get_of_loose (runs_request.mp hsync) id).trans h₈

theorem runs_writeMode_new {d : CredDir} {name : String} {b : CredBlob} {folder : Folder}
    (hd : s.get d = some folder) (hnew : folder.get name = none) :
    Runs Steady (writeMode d name b) s (.ok ()) (s.put d (folder.put name b)) := by
  have hcreate : Steady s (.createNew d name) (.ok ()) (s.put d (folder.put name (.text ""))) := by
    simp only [Steady, hd, hnew]
    exact ⟨trivial, trivial⟩
  have hwrite : Steady (s.put d (folder.put name (.text ""))) (.writeAll d name b) (.ok ())
      (s.put d (folder.put name b)) := by
    simp only [Steady, FileMap.get_put, if_true, FileMap.put_put, and_self]
  refine (runs_bind _ _ _ _ _).mpr ⟨_, _, runs_request.mpr hcreate, ?_⟩
  refine (runs_bind _ _ _ _ _).mpr ⟨_, _, runs_request.mpr hwrite, ?_⟩
  exact (runs_bind _ _ _ _ _).mpr ⟨.ok (), _, runs_request.mpr ⟨rfl, rfl⟩, rfl, rfl⟩

/-- The loop removes the files it is given, there or not. -/
theorem runs_unlinkLoop {d : CredDir} {folder : Folder} {names : List String}
    (hd : s.get d = some folder) :
    Runs Steady (unlinkLoop d names) s (.ok ()) (s.put d (folder.delAll names)) := by
  induction names generalizing s folder with
  | nil =>
    refine ⟨rfl, ?_⟩
    ext1 q
    rw [FileMap.get_put]
    split_ifs with hq
    · rw [hq, hd]
      rfl
    · rfl
  | cons name rest ih =>
    cases hname : folder.get name with
    | none =>
      have hstep : Steady s (.removeFile d name) (.error .notFound) s := by
        simp only [Steady, hd, hname, and_self]
      have hdel : s.get d = some (folder.del name) := by rwa [FileMap.del_of_get_none hname]
      have hrest := ih hdel
      exact (runs_bind _ _ _ _ _).mpr ⟨_, _, runs_request.mpr hstep, hrest⟩
    | some b =>
      have hstep : Steady s (.removeFile d name) (.ok ()) (s.put d (folder.del name)) := by
        simp only [Steady, hd, hname, and_self]
      have hput : (s.put d (folder.del name)).get d = some (folder.del name) := by
        rw [FileMap.get_put, if_pos rfl]
      have hrest := ih hput
      rw [FileMap.put_put] at hrest
      exact (runs_bind _ _ _ _ _).mpr ⟨_, _, runs_request.mpr hstep, hrest⟩

/-- Without faults a directory that exists can be removed. -/
theorem runs_removeDirAll {d : CredDir} {folder : Folder} (hd : s.get d = some folder) :
    Runs Steady (removeDirAll d) s (.ok ()) (s.del d) := by
  obtain ⟨names, hnames⟩ := folder.exists_lists fun _ => True
  have hlist : Steady s (.listFolder d) (.ok names) s := by
    simp only [Steady, hd]
    exact ⟨trivial, names, hnames, rfl⟩
  have hempty : folder.delAll names = .empty := by
    ext1 name
    rw [FileMap.get_delAll, FileMap.get_empty]
    split_ifs with hmem
    · rfl
    · by_contra hne
      exact hmem (hnames.mem.mpr ⟨trivial, Option.isSome_iff_ne_none.mpr hne⟩)
  have hremove : Steady (s.put d (folder.delAll names)) (.removeFolder d) (.ok ()) (s.del d) := by
    have hdel : (s.put d (folder.delAll names)).del d = s.del d := by
      ext1 q
      simp only [FileMap.get_del, FileMap.get_put]
      split_ifs <;> rfl
    simp only [Steady, FileMap.get_put, if_true]
    exact Or.inl ⟨hempty, trivial, hdel.symm⟩
  exact (runs_bind _ _ _ _ _).mpr ⟨_, _, runs_request.mpr hlist,
    (runs_bind _ _ _ _ _).mpr ⟨_, _, runs_unlinkLoop hd, runs_request.mpr hremove⟩⟩

theorem runs_removeDirIfExists (s : Disk) (d : CredDir) :
    Runs Steady (removeDirIfExists d) s (.ok ()) (s.del d) := by
  cases hd : s.get d with
  | none =>
    have hlist : Steady s (.listFolder d) (.error .notFound) s := by
      simp only [Steady, hd, and_self]
    have hall : Runs Steady (removeDirAll d) s (.error .notFound) s :=
      (runs_bind _ _ _ _ _).mpr ⟨_, _, runs_request.mpr hlist, rfl, rfl⟩
    rw [FileMap.del_of_get_none hd]
    exact (runs_bind _ _ _ _ _).mpr ⟨_, _, hall, rfl, rfl⟩
  | some folder => exact (runs_bind _ _ _ _ _).mpr ⟨_, _, runs_removeDirAll hd, rfl, rfl⟩

/-- The disk after a staging. -/
def stagedDisk (s : Disk) (opts : SaveOptions) : Disk :=
  ((s.del .staging).del .rotated).put .staging (staged opts)

theorem get_stagedDisk (s : Disk) (opts : SaveOptions) (d : CredDir) : (stagedDisk s opts).get d =
    if d = .staging then some (staged opts) else if d = .rotated then none else s.get d := by
  simp only [stagedDisk, FileMap.get_put, FileMap.get_del]
  cases d <;> simp

/-- Without faults a staging succeeds. -/
theorem runs_stage (s : Disk) (opts : SaveOptions) :
    Runs Steady (stage opts) s (.ok ()) (stagedDisk s opts) := by
  have hst : ((s.del .staging).del .rotated).get .staging = none := by
    rw [FileMap.get_del, if_neg (by decide), FileMap.get_del, if_pos rfl]
  have hcreate : Steady ((s.del .staging).del .rotated) (.createFolder .staging) (.ok ())
      (((s.del .staging).del .rotated).put .staging .empty) := by
    simp only [Steady, hst, and_self]
  have hwrite : ∀ {u : Disk} {folder : Folder} {name : String} {b : CredBlob},
      folder.get name = none → Runs Steady (writeMode .staging name b) (u.put .staging folder)
        (.ok ()) (u.put .staging (folder.put name b)) := by
    intro u folder name b hnew
    have hd : (u.put .staging folder).get .staging = some folder := by
      rw [FileMap.get_put, if_pos rfl]
    have hrun := runs_writeMode_new (b := b) hd hnew
    rwa [FileMap.put_put] at hrun
  refine (runs_bind _ _ _ _ _).mpr ⟨_, _, runs_removeDirIfExists _ _, ?_⟩
  refine (runs_bind _ _ _ _ _).mpr ⟨_, _, runs_removeDirIfExists _ _, ?_⟩
  refine (runs_bind _ _ _ _ _).mpr ⟨.ok (), _, runs_request.mpr ⟨rfl, rfl⟩, ?_⟩
  refine (runs_bind _ _ _ _ _).mpr ⟨.ok (), _, runs_request.mpr hcreate, ?_⟩
  refine (runs_bind _ _ _ _ _).mpr ⟨_, _, hwrite (FileMap.get_empty _), ?_⟩
  refine (runs_bind _ _ _ _ _).mpr ⟨_, _, hwrite (by
    simp [FileMap.get_put, caChainFile, stationCertFile]), ?_⟩
  refine (runs_bind _ _ _ _ _).mpr ⟨_, _, hwrite (by
    simp [FileMap.get_put, stationKeyFile, caChainFile, stationCertFile]), ?_⟩
  refine (runs_bind _ _ _ _ _).mpr ⟨_, _, hwrite (by
    simp [FileMap.get_put, identityFile, stationKeyFile, caChainFile, stationCertFile]), ?_⟩
  have hsync : Steady (stagedDisk s opts) (.syncFolder .staging) (.ok ()) (stagedDisk s opts) := by
    simp only [Steady, get_stagedDisk, if_true, and_self]
  exact (runs_bind _ _ _ _ _).mpr ⟨.ok (), _, runs_request.mpr hsync, rfl, rfl⟩

/-! ## The swap -/

theorem runs_promote_ok {credsExisted : Bool}
    (h : Runs Loose (promote credsExisted) s (.ok ()) t) :
    ∃ folder, s.get .staging = some folder ∧ t = (s.del .staging).put .credentials folder := by
  obtain ⟨v, u, hv, h⟩ := (runs_bind _ _ _ _ _).mp h
  cases v with
  | ok _ =>
    obtain ⟨-, rfl⟩ := h
    exact renameFolder_ok (runs_request.mp hv)
  | error e =>
    cases credsExisted with
    | true =>
      obtain ⟨w, x, -, h⟩ := (runs_bind _ _ _ _ _).mp h
      cases h.1
    | false => cases h.1

/-- A swap that succeeds has promoted what was staged. -/
theorem credentials_of_swap {new : Folder} {credsExisted : Bool} (hst : s.get .staging = some new)
    (h : Runs Loose swap s (.ok credsExisted) t) : t.get .credentials = some new := by
  have hpromote : ∀ {existed : Bool} {u : Disk}, u.get .staging = some new →
      Runs Loose (promote existed) u (.ok ()) t → t.get .credentials = some new := by
    intro existed u hu hp
    obtain ⟨folder, hf, rfl⟩ := runs_promote_ok hp
    rw [FileMap.get_put, if_pos rfl, ← hf, hu]
  obtain ⟨existed, u, hex, hswap⟩ := (runs_bind _ _ _ _ _).mp h
  have hu : u.get .staging = some new := (get_of_loose (runs_request.mp hex) id).trans hst
  obtain ⟨⟨⟩, w, hmove, hend⟩ := hswap.bind_ok fun _ => ⟨_, rfl⟩
  obtain ⟨-, rfl⟩ := hend
  cases existed with
  | true =>
    obtain ⟨⟨⟩, x, hrot, hprom⟩ := hmove.bind_ok fun _ => ⟨_, rfl⟩
    have hx := get_of_loose (d := .staging) (runs_request.mp hrot) (by simp [CredReq.Touches])
    exact hpromote (hx.trans hu) hprom
  | false => exact hpromote hu hmove

/-- A promotion onto a free name succeeds, and may be stopped before or after the rename. -/
theorem reaches_promote {credsExisted : Bool} {new : Folder} (hst : s.get .staging = some new)
    (hnone : s.get .credentials = none) (h : Reaches Steady (promote credsExisted) s t) :
    t = s ∨ t.get .credentials = some new := by
  have hmoved : ∀ {v w}, Steady s (.renameFolder .staging .credentials) v w →
      v = .ok () ∧ w.get .credentials = some new := by
    intro v w hr
    obtain ⟨rfl, rfl⟩ := renameFolder_free hst hnone hr
    exact ⟨rfl, by rw [FileMap.get_put, if_pos rfl]⟩
  rcases (reaches_bind _ _ _ _).mp h with hstop | ⟨v, w, hv, hstop⟩
  · rcases reaches_request.mp hstop with rfl | ⟨v, hv⟩
    · exact Or.inl rfl
    · exact Or.inr (hmoved hv).2
  · obtain ⟨rfl, hw⟩ := hmoved (runs_request.mp hv)
    obtain rfl := reaches_pure.mp hstop
    exact Or.inr hw

/-- Where a swap may be stopped: before anything moved, between the two renames, or at its end. -/
theorem reaches_swap {new : Folder} (hst : s.get .staging = some new)
    (h : Reaches Steady swap s t) : t = s ∨
      Runs Steady (askCred (.renameFolder .credentials .rotated)) s (.ok ()) t ∨
      t.get .credentials = some new := by
  rcases (reaches_bind _ _ _ _).mp h with hstop | ⟨existed, u, hex, hstop⟩
  · rcases reaches_request.mp hstop with rfl | ⟨v, -, rfl⟩
    · exact Or.inl rfl
    · exact Or.inl rfl
  obtain ⟨rfl, rfl⟩ := runs_request.mp hex
  have hmove := reaches_bind_pure hstop fun a => by cases a <;> exact ⟨_, rfl⟩
  cases hcreds : u.get .credentials with
  | none =>
    rw [hcreds] at hmove
    rcases reaches_promote hst hcreds hmove with rfl | hnew
    · exact Or.inl rfl
    · exact Or.inr (Or.inr hnew)
  | some old =>
    rw [hcreds] at hmove
    rcases (reaches_bind _ _ _ _).mp hmove with hrot | ⟨v, w, hrot, hprom⟩
    · rcases reaches_request.mp hrot with rfl | ⟨v, hv⟩
      · exact Or.inl rfl
      · cases v with
        | ok _ => exact Or.inr (Or.inl (runs_request.mpr hv))
        | error e => exact Or.inl (renameFolder_error (Or.inl hv))
    · cases v with
      | error e =>
        obtain rfl := reaches_pure.mp hprom
        exact Or.inl (renameFolder_error (Or.inl (runs_request.mp hrot)))
      | ok _ =>
        obtain ⟨folder, -, hw⟩ := renameFolder_ok (Or.inl (runs_request.mp hrot))
        have hnew : w.get .staging = some new := by
          rw [← hst]
          exact get_of_steady (runs_request.mp hrot) (by simp [CredReq.Touches])
        have hnone : w.get .credentials = none := by
          rw [hw, FileMap.get_put, if_neg (by decide), FileMap.get_del, if_pos rfl]
        rcases reaches_promote hnew hnone hprom with rfl | hnew
        · exact Or.inr (Or.inl hrot)
        · exact Or.inr (Or.inr hnew)

/-- A promotion that fails, at most once at fault, leaves `credentials/` as it is, or moves the
rotated directory back. -/
theorem credentials_of_failed_promote {credsExisted : Bool} {new : Folder} {err : IdentityError}
    (hst : s.get .staging = some new) (hnone : credsExisted = true → s.get .credentials = none)
    (h : RunsAtMostOnce Steady CredFaulty (promote credsExisted) s (.error err) t) :
    t.get .credentials = if credsExisted then s.get .rotated else s.get .credentials := by
  rcases (runsAtMostOnce_bind _ _ _ _ _).mp h with ⟨v, u, hv, hrest⟩ | ⟨v, u, hv, hrest⟩
  · cases v with
    | ok _ => cases hrest.1
    | error e =>
      obtain rfl := renameFolder_error (runsAtMostOnce_request.mp hv)
      cases credsExisted with
      | false =>
        obtain ⟨-, rfl⟩ := hrest
        rfl
      | true =>
        obtain ⟨w, x, hback, hend⟩ := (runs_bind _ _ _ _ _).mp hrest
        obtain ⟨-, rfl⟩ := hend
        have hfree := hnone rfl
        have hrun := runs_request.mp hback
        cases hold : u.get .rotated with
        | none =>
          simp only [Steady, hold] at hrun
          rw [hrun.2]
          exact hfree
        | some old =>
          obtain ⟨-, rfl⟩ := renameFolder_free hold hfree hrun
          rw [FileMap.get_put, if_pos rfl, if_pos rfl]
  · cases v with
    | ok _ => exact hrest.elim
    | error e =>
      obtain rfl := renameFolder_error (Or.inl (runs_request.mp hv))
      cases credsExisted with
      | false => exact hrest.elim
      | true =>
        obtain ⟨hok, -⟩ := renameFolder_free hst (hnone rfl) (runs_request.mp hv)
        cases hok

theorem credentials_of_failed_rotate {credsExisted : Bool} {new : Folder} {err : IdentityError}
    (hst : s.get .staging = some new)
    (h : RunsAtMostOnce Steady CredFaulty (rotate credsExisted) s (.error err) t) :
    t.get .credentials = s.get .credentials := by
  cases credsExisted with
  | false => exact credentials_of_failed_promote hst (fun hf => by cases hf) h
  | true =>
  have hrotated : ∀ {w}, Loose s (.renameFolder .credentials .rotated) (.ok ()) w →
      RunsAtMostOnce Steady CredFaulty (promote true) w (.error err) t →
      t.get .credentials = s.get .credentials := by
    intro w hw hp
    have hnew := (get_of_loose (d := .staging) hw (by simp [CredReq.Touches])).trans hst
    obtain ⟨folder, hold, rfl⟩ := renameFolder_ok hw
    rw [credentials_of_failed_promote hnew (fun _ => ?_) hp, if_pos rfl, FileMap.get_put,
      if_pos rfl, hold]
    rw [FileMap.get_put, if_neg (by decide), FileMap.get_del, if_pos rfl]
  rcases (runsAtMostOnce_bind _ _ _ _ _).mp h with ⟨v, u, hv, hrest⟩ | ⟨v, u, hv, hrest⟩
  · cases v with
    | ok _ => exact hrotated (runsAtMostOnce_request.mp hv) (Or.inl hrest)
    | error e =>
      obtain ⟨-, rfl⟩ := hrest
      rw [renameFolder_error (runsAtMostOnce_request.mp hv)]
  · cases v with
    | ok _ => exact hrotated (Or.inl (runs_request.mp hv)) (Or.inr hrest)
    | error e => exact hrest.elim

/-- A swap that fails, at most once at fault, leaves `credentials/` as it was. -/
theorem credentials_of_failed_swap {new : Folder} {err : IdentityError}
    (hst : s.get .staging = some new)
    (h : RunsAtMostOnce Steady CredFaulty swap s (.error err) t) :
    t.get .credentials = s.get .credentials := by
  -- the question whether there is a `credentials/` moves nothing
  have hasked : ∀ {existed u}, Loose s (.folderExists .credentials) existed u → u = s := by
    rintro existed u (⟨-, hu⟩ | ⟨-, hu⟩)
    · exact hu
    · exact hu
  have hrest : ∀ {existed u} {k : Except IdentityError Unit → CredAct (Except IdentityError Bool)},
      (∀ e, k (.error e) = pure (.error e)) → k (.ok ()) = pure (.ok existed) → u = s →
      RunsAtMostOnce Steady CredFaulty (rotate existed >>= k) u (.error err) t →
      t.get .credentials = s.get .credentials := by
    rintro existed u k herror hok rfl hr
    rcases (runsAtMostOnce_bind _ _ _ _ _).mp hr with ⟨r, w, hrot, hend⟩ | ⟨r, w, hrot, hend⟩
    · cases r with
      | ok _ =>
        rw [hok] at hend
        cases hend.1
      | error e =>
        rw [herror] at hend
        obtain ⟨-, rfl⟩ := hend
        exact credentials_of_failed_rotate hst hrot
    · cases r with
      | ok _ =>
        rw [hok] at hend
        exact hend.elim
      | error e =>
        rw [herror] at hend
        exact hend.elim
  rcases (runsAtMostOnce_bind _ _ _ _ _).mp h with ⟨v, u, hv, hr⟩ | ⟨v, u, hv, hr⟩
  · exact hrest (fun _ => rfl) rfl (hasked (runsAtMostOnce_request.mp hv)) (Or.inl hr)
  · exact hrest (fun _ => rfl) rfl (hasked (Or.inl (runs_request.mp hv))) (Or.inr hr)

/-! ## Up to the promotion -/

/-- A save that gets as far as the promotion has put the new files into `credentials/`. -/
theorem credentials_of_install {credsExisted : Bool}
    (h : Runs Loose (install opts) s (.ok credsExisted) t) :
    t.get .credentials = some (staged opts) := by
  obtain ⟨⟨⟩, u, -, hrest⟩ := h.bind_ok fun _ => ⟨_, rfl⟩
  obtain ⟨⟨⟩, w, hstage, hswap⟩ := hrest.bind_ok fun _ => ⟨_, rfl⟩
  exact credentials_of_swap (staging_of_stage hstage) hswap

/-- A save that ends before the promotion, at most once at fault, leaves `credentials/` as it was. -/
theorem credentials_of_failed_install {err : IdentityError}
    (h : RunsAtMostOnce Steady CredFaulty (install opts) s (.error err) t) :
    t.get .credentials = s.get .credentials := by
  have hstaged : ∀ {u} {k : Except IdentityError Unit → CredAct (Except IdentityError Bool)},
      (∀ e, k (.error e) = pure (.error e)) → k (.ok ()) = swap →
      u.get .credentials = s.get .credentials →
      RunsAtMostOnce Steady CredFaulty (stage opts >>= k) u (.error err) t →
      t.get .credentials = s.get .credentials := by
    intro u k herror hok hu hr
    rcases (runsAtMostOnce_bind _ _ _ _ _).mp hr with ⟨r, w, hstage, hend⟩ | ⟨r, w, hstage, hend⟩
    · have hw := (credentials_of_runs (within_stage opts) hstage.either).trans hu
      cases r with
      | error e =>
        rw [herror] at hend
        obtain ⟨-, rfl⟩ := hend
        exact hw
      | ok _ =>
        rw [hok] at hend
        have hnew := staging_of_stage hstage.either
        exact (credentials_of_failed_swap hnew (Or.inl hend)).trans hw
    · have hw := (credentials_of_runs (within_stage opts) (loose_of_steady hstage)).trans hu
      cases r with
      | error e =>
        rw [herror] at hend
        exact hend.elim
      | ok _ =>
        rw [hok] at hend
        have hnew := staging_of_stage (loose_of_steady hstage)
        exact (credentials_of_failed_swap hnew (Or.inr hend)).trans hw
  rcases (runsAtMostOnce_bind _ _ _ _ _).mp h with ⟨r, u, hrefuse, hr⟩ | ⟨r, u, hrefuse, hr⟩
  · have hu := credentials_of_runs (within_refuse opts) hrefuse.either
    cases r with
    | error e =>
      obtain ⟨-, rfl⟩ := hr
      exact hu
    | ok _ => exact hstaged (fun _ => rfl) rfl hu (Or.inl hr)
  · have hu := credentials_of_runs (within_refuse opts) (loose_of_steady hrefuse)
    cases r with
    | error e => exact hr.elim
    | ok _ => exact hstaged (fun _ => rfl) rfl hu (Or.inr hr)

/-! ## Loading -/

/-- The file `name` of a directory that may not exist. -/
def readIn (folder : Option Folder) (name : String) : Except IoError CredBlob :=
  match folder with
  | none => .error .notFound
  | some folder =>
    match folder.get name with
    | none => .error .notFound
    | some b => .ok b

/-- Text files only. -/
def asText : Except IoError CredBlob → Except IoError CredBlob
  | .ok (.binary _) => .error (.other 0 "stream did not contain valid UTF-8")
  | v => v

/-- What `load` makes of the directory `credentials/`. -/
def loaded (pki : Pki) (folder : Option Folder) : Except IdentityError StationIdentity :=
  match asText (readIn folder identityFile) with
  | .error source => .error (.io (.file .credentials identityFile) source)
  | .ok contents =>
    match decodeIdentity contents with
    | none => .error (.parse (.file .credentials identityFile))
    | some file =>
      match readIn folder stationCertFile with
      | .error source => .error (.io (.file .credentials stationCertFile) source)
      | .ok pem =>
        match parseCertNotAfter pki (.file .credentials stationCertFile) pem with
        | .error err => .error err
        | .ok certNotAfter =>
          .ok ⟨file.stationId, file.enrolledAt, file.perchpubUrl, certNotAfter⟩

theorem runs_readFile {d : CredDir} {name : String} {v : Except IoError CredBlob} :
    Runs Steady (readFile d name) s v t ↔ v = readIn (s.get d) name ∧ t = s := by
  rw [readFile, askCred, runs_request]
  simp only [Steady, readIn]
  cases s.get d with
  | none => exact and_comm
  | some folder => cases hget : folder.get name <;> simp [hget, and_comm]

theorem runs_readToString {d : CredDir} {name : String} {v : Except IoError CredBlob} :
    Runs Steady (readToString d name) s v t ↔ v = asText (readIn (s.get d) name) ∧ t = s := by
  rw [readToString, runs_bind_of_look fun _ _ => runs_readFile]
  cases readIn (s.get d) name with
  | error source => exact runs_pure
  | ok contents => cases contents <;> exact runs_pure

theorem runs_load {r : Except IdentityError StationIdentity} :
    Runs Steady (load pki) s r t ↔ r = loaded pki (s.get .credentials) ∧ t = s := by
  unfold loaded
  rw [load, runs_bind_of_look fun _ _ => runs_readToString]
  cases asText (readIn (s.get .credentials) identityFile) with
  | error source => exact runs_pure
  | ok contents =>
    dsimp only
    cases decodeIdentity contents with
    | none => exact runs_pure
    | some file =>
      dsimp only
      rw [runs_bind_of_look fun _ _ => runs_readFile]
      cases readIn (s.get .credentials) stationCertFile with
      | error source => exact runs_pure
      | ok pem =>
        dsimp only
        cases parseCertNotAfter pki (.file .credentials stationCertFile) pem <;> exact runs_pure

/-- The certificate of a save is one `load` can read. -/
def CertParses (pki : Pki) (opts : SaveOptions) : Prop :=
  ∃ certNotAfter, parseCertNotAfter pki (.file .credentials stationCertFile) opts.stationCertPem =
    .ok certNotAfter

/-- The staged folder loads exactly if its certificate parses. -/
theorem loaded_staged_iff :
    (∃ identity, loaded pki (some (staged opts)) = .ok identity) ↔ CertParses pki opts := by
  have hfile : asText (readIn (some (staged opts)) identityFile) =
      .ok (.identity ⟨opts.stationId, opts.enrolledAt, opts.perchpubUrl⟩) := by
    simp [readIn, get_staged, asText]
  have hcert : readIn (some (staged opts)) stationCertFile = .ok opts.stationCertPem := by
    have h1 : stationCertFile ≠ identityFile := by decide
    have h2 : stationCertFile ≠ stationKeyFile := by decide
    have h3 : stationCertFile ≠ caChainFile := by decide
    simp [readIn, get_staged, h1, h2, h3]
  unfold loaded CertParses
  rw [hfile, hcert]
  simp only [decodeIdentity]
  cases parseCertNotAfter pki (.file .credentials stationCertFile) opts.stationCertPem with
  | error err => simp
  | ok certNotAfter => simp

/-! ## A first save -/

/-- The disk after a save that finds no `credentials/`. -/
def freshDisk (s : Disk) (opts : SaveOptions) : Disk :=
  ((stagedDisk s opts).del .staging).put .credentials (staged opts)

theorem get_freshDisk (s : Disk) (opts : SaveOptions) (d : CredDir) : (freshDisk s opts).get d =
    if d = .credentials then some (staged opts) else none := by
  simp only [freshDisk, FileMap.get_put, FileMap.get_del, get_stagedDisk]
  cases d <;> simp

theorem runs_refuse_absent (hnone : s.get .credentials = none) :
    Runs Steady (refuse opts) s (.ok ()) s := by
  unfold refuse
  split_ifs
  · exact ⟨rfl, rfl⟩
  · have hpeek : Runs Steady peekExistingStationId s (.ok none) s := by
      rw [peekExistingStationId, runs_bind_of_look fun _ _ => runs_readToString, hnone]
      exact ⟨rfl, rfl⟩
    exact (runs_bind _ _ _ _ _).mpr ⟨_, _, hpeek, rfl, rfl⟩

/-- Without faults a save that finds no `credentials/` puts the new files there and loads them. -/
theorem runs_save_absent (hnone : s.get .credentials = none) :
    Runs Steady (save pki opts) s (loaded pki (some (staged opts))) (freshDisk s opts) := by
  have hno : (stagedDisk s opts).get .credentials = none := by
    rw [get_stagedDisk, if_neg (by decide), if_neg (by decide), hnone]
  have hexists : Steady (stagedDisk s opts) (.folderExists .credentials) false (stagedDisk s opts) :=
    ⟨by rw [hno]; rfl, rfl⟩
  have hrename : Steady (stagedDisk s opts) (.renameFolder .staging .credentials) (.ok ())
      (freshDisk s opts) := by
    simp only [Steady, get_stagedDisk, if_true, hnone]
    exact Or.inl ⟨Or.inl (by simp), trivial, rfl⟩
  have hswap : Runs Steady swap (stagedDisk s opts) (.ok false) (freshDisk s opts) := by
    refine (runs_bind _ _ _ _ _).mpr ⟨_, _, runs_request.mpr hexists, ?_⟩
    refine (runs_bind _ _ _ _ _).mpr ⟨.ok (), _, ?_, rfl, rfl⟩
    exact (runs_bind _ _ _ _ _).mpr ⟨.ok (), _, runs_request.mpr hrename, rfl, rfl⟩
  refine (runs_bind _ _ _ _ _).mpr ⟨.ok false, freshDisk s opts, ?_, ?_⟩
  · refine (runs_bind _ _ _ _ _).mpr ⟨_, _, runs_refuse_absent hnone, ?_⟩
    exact (runs_bind _ _ _ _ _).mpr ⟨_, _, runs_stage s opts, hswap⟩
  · refine (runs_bind _ _ _ _ _).mpr ⟨.ok (), _, runs_request.mpr ⟨rfl, rfl⟩, ?_⟩
    refine (runs_bind _ _ _ _ _).mpr ⟨(), _, ⟨rfl, rfl⟩, runs_load.mpr ⟨?_, rfl⟩⟩
    rw [get_freshDisk, if_pos rfl]

/-! ## A save over existing credentials -/

/-- The disk after the swap of a save that finds the directory `old`. -/
def swappedDisk (s : Disk) (opts : SaveOptions) (old : Folder) : Disk :=
  ((((stagedDisk s opts).del .credentials).put .rotated old).del .staging).put .credentials
    (staged opts)

theorem get_swappedDisk (s : Disk) (opts : SaveOptions) (old : Folder) (d : CredDir) :
    (swappedDisk s opts old).get d =
      if d = .credentials then some (staged opts) else if d = .rotated then some old else none := by
  simp only [swappedDisk, FileMap.get_put, FileMap.get_del, get_stagedDisk]
  cases d <;> simp

/-- Without faults the swap rotates the old directory out and promotes the new. -/
theorem runs_install_present {old : Folder} (hold : s.get .credentials = some old)
    (hrefuse : Runs Steady (refuse opts) s (.ok ()) s) :
    Runs Steady (install opts) s (.ok true) (swappedDisk s opts old) := by
  have hcreds : (stagedDisk s opts).get .credentials = some old := by
    rw [get_stagedDisk, if_neg (by decide), if_neg (by decide), hold]
  have hexists : Steady (stagedDisk s opts) (.folderExists .credentials) true (stagedDisk s opts) :=
    ⟨by rw [hcreds]; rfl, rfl⟩
  have hrotate : Steady (stagedDisk s opts) (.renameFolder .credentials .rotated) (.ok ())
      (((stagedDisk s opts).del .credentials).put .rotated old) := by
    simp only [Steady, hcreds]
    exact Or.inl ⟨Or.inl (by simp [get_stagedDisk]), trivial, trivial⟩
  have hpromote : Steady (((stagedDisk s opts).del .credentials).put .rotated old)
      (.renameFolder .staging .credentials) (.ok ()) (swappedDisk s opts old) := by
    have hst : (((stagedDisk s opts).del .credentials).put .rotated old).get .staging =
        some (staged opts) := by
      simp [FileMap.get_put, FileMap.get_del, get_stagedDisk]
    simp only [Steady, hst]
    exact Or.inl ⟨Or.inl (by simp [FileMap.get_put, FileMap.get_del]), trivial, rfl⟩
  refine (runs_bind _ _ _ _ _).mpr ⟨_, _, hrefuse, ?_⟩
  refine (runs_bind _ _ _ _ _).mpr ⟨_, _, runs_stage s opts, ?_⟩
  refine (runs_bind _ _ _ _ _).mpr ⟨_, _, runs_request.mpr hexists, ?_⟩
  refine (runs_bind _ _ _ _ _).mpr ⟨.ok (), _, ?_, rfl, rfl⟩
  refine (runs_bind _ _ _ _ _).mpr ⟨.ok (), _, runs_request.mpr hrotate, ?_⟩
  exact (runs_bind _ _ _ _ _).mpr ⟨.ok (), _, runs_request.mpr hpromote, rfl, rfl⟩

/-- Without faults the save then removes the old directory and loads the new files. -/
theorem runs_save_present {old : Folder} (hold : s.get .credentials = some old)
    (hrefuse : Runs Steady (refuse opts) s (.ok ()) s) :
    Runs Steady (save pki opts) s (loaded pki (some (staged opts)))
      ((swappedDisk s opts old).del .rotated) := by
  have hrotated : (swappedDisk s opts old).get .rotated = some old := by
    rw [get_swappedDisk, if_neg (by decide), if_pos rfl]
  have hclean : Runs Steady (cleanup true) (swappedDisk s opts old) ()
      ((swappedDisk s opts old).del .rotated) :=
    (runs_bind _ _ _ _ _).mpr ⟨_, _, runs_removeDirAll hrotated, rfl, rfl⟩
  have hcreds : ((swappedDisk s opts old).del .rotated).get .credentials = some (staged opts) := by
    rw [FileMap.get_del, if_neg (by decide), get_swappedDisk, if_pos rfl]
  refine (runs_bind _ _ _ _ _).mpr ⟨_, _, runs_install_present hold hrefuse, ?_⟩
  refine (runs_bind _ _ _ _ _).mpr ⟨.ok (), _, runs_request.mpr ⟨rfl, rfl⟩, ?_⟩
  exact (runs_bind _ _ _ _ _).mpr ⟨(), _, hclean, runs_load.mpr ⟨by rw [hcreds], rfl⟩⟩

/-! ## A save stopped half-way -/

/-- The save has rotated `credentials/` out of the way and not yet promoted the staging directory. -/
def BetweenRenames (opts : SaveOptions) (s t : Disk) : Prop :=
  ∃ u w, Runs Steady (refuse opts) s (.ok ()) u ∧ Runs Steady (stage opts) u (.ok ()) w ∧
    Runs Steady (askCred (.renameFolder .credentials .rotated)) w (.ok ()) t

theorem BetweenRenames.folders (h : BetweenRenames opts s t) :
    t.get .credentials = none ∧ t.get .rotated = s.get .credentials ∧
      t.get .staging = some (staged opts) := by
  obtain ⟨u, w, hrefuse, hstage, hrot⟩ := h
  have hu := credentials_of_runs (within_refuse opts) (loose_of_steady hrefuse)
  have hw := credentials_of_runs (within_stage opts) (loose_of_steady hstage)
  have hnew := staging_of_stage (loose_of_steady hstage)
  obtain ⟨old, hold, rfl⟩ := renameFolder_ok (Or.inl (runs_request.mp hrot))
  refine ⟨?_, ?_, ?_⟩
  · rw [FileMap.get_put, if_neg (by decide), FileMap.get_del, if_pos rfl]
  · rw [FileMap.get_put, if_pos rfl, ← hu, ← hw, hold]
  · rw [FileMap.get_put, if_neg (by decide), FileMap.get_del, if_neg (by decide), hnew]

/-- A stopped save has left `credentials/` alone, is between its renames, or has put the new files in
its place. -/
theorem stop_save (h : Reaches Steady (save pki opts) s t) :
    t.get .credentials = s.get .credentials ∨ BetweenRenames opts s t ∨
      t.get .credentials = some (staged opts) := by
  have hinstall : ∀ {x}, Reaches Steady (install opts) s x →
      x.get .credentials = s.get .credentials ∨ BetweenRenames opts s x ∨
        x.get .credentials = some (staged opts) := by
    intro x hx
    rcases (reaches_bind _ _ _ _).mp hx with hx | ⟨r, u, hrefuse, hx⟩
    · exact Or.inl (credentials_of_reaches (within_refuse opts) hx)
    have hu := credentials_of_runs (within_refuse opts) (loose_of_steady hrefuse)
    cases r with
    | error err =>
      obtain rfl := reaches_pure.mp hx
      exact Or.inl hu
    | ok _ =>
      rcases (reaches_bind _ _ _ _).mp hx with hx | ⟨r, w, hstage, hx⟩
      · exact Or.inl ((credentials_of_reaches (within_stage opts) hx).trans hu)
      have hw := credentials_of_runs (within_stage opts) (loose_of_steady hstage)
      cases r with
      | error err =>
        obtain rfl := reaches_pure.mp hx
        exact Or.inl (hw.trans hu)
      | ok _ =>
        rcases reaches_swap (staging_of_stage (loose_of_steady hstage)) hx with rfl | hrot | hnew
        · exact Or.inl (hw.trans hu)
        · exact Or.inr (Or.inl ⟨u, w, hrefuse, hstage, hrot⟩)
        · exact Or.inr (Or.inr hnew)
  rcases (reaches_bind _ _ _ _).mp h with h' | ⟨r, u, hrun, h'⟩
  · exact hinstall h'
  have hu := hinstall hrun.reaches
  cases r with
  | error err =>
    obtain rfl := reaches_pure.mp h'
    exact hu
  | ok credsExisted =>
    have ht := credentials_of_reaches (within_settle pki credsExisted) h'
    have hnew := credentials_of_install (loose_of_steady hrun)
    exact Or.inr (Or.inr (ht.trans hnew))

end Identity

end Perchstation
