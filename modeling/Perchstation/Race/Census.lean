import Perchstation.Queue.Policy
import Perchstation.Queue.ScanRules
import Perchstation.Race.Tally

/-!
# The census beside the runner

The census lists `inflight/`, then `delivered/`, then `pending/`, while the runner moves clips
between them.  A clip that leaves `inflight/` before it is read there turns up in a directory that
is read later.  The other way round it can go unseen: what the census sees is every clip but those
that a hand-off takes out of `pending/` meanwhile (`Counted`).
-/

namespace Perchstation

open Interleaving Resumption QueueStore

/-- A file-system call of a sweep that fails for another reason than a missing file. -/
def SweepFault : Env Req Rep Fs
  | fs, .read _, v, t => (∃ err, err ≠ IoError.notFound ∧ v = .error err) ∧ t = fs
  | fs, .readDir _, v, t => (∃ err, err ≠ IoError.notFound ∧ v = .error err) ∧ t = fs
  | fs, .removeFile _, v, t => (∃ err, err ≠ IoError.notFound ∧ v = .error err) ∧ t = fs
  | _, _, _, _ => False

/-- The answers a sweep can get. -/
def SweepEnv : Env Req Rep Fs := fun fs r v t => Nominal fs r v t ∨ SweepFault fs r v t

/-- A victim has not moved: where media in `pending/` is removed or found missing, the clip lies
there with media and sidecar. -/
def VictimStays : (fs : Fs) → (r : Req) → Rep r → Prop
  | fs, .removeFile (.queue .pending c .mp4), v => v = .ok () ∨ v = .error IoError.notFound →
      (filesOf fs c).pendingMp4 ≠ none ∧ (filesOf fs c).pendingSidecar ≠ none
  | _, _, _ => True

theorem VictimStays.of_done {fs : Fs} {p : Path} {v : Except IoError Unit}
    (h : VictimStays fs (.removeFile p) v) (hv : v = .ok () ∨ v = .error .notFound) :
    VictimStays fs (.removeFile p) (.ok ()) := by
  cases p with
  | queue d c x => cases d <;> cases x <;> first | trivial | exact fun _ => h hv
  | _ => trivial

/-- Hand-offs only take clips of `seen` out of `pending/`. -/
def HandsOff (seen : ClipId → Prop) (fs t : Fs) : Prop :=
  ∀ c, fs.get (.sidecar .pending c) ≠ none → t.get (.sidecar .pending c) = none → seen c

theorem DifferIn.handsOff {c : ClipId} {fs t : Fs} (h : DifferIn c fs t) : HandsOff (· = c) fs t := by
  intro c' hfs ht
  by_contra hne
  exact hfs ((h.queue _ _ _ hne).symm.trans ht)

/-- A step of the runner that hands off clips of `seen` only. -/
structure SeenStep (n : ClipId → UInt64) (seen : ClipId → Prop) (fs t : Fs) : Prop where
  runner : RunnerStep n fs t
  handsOff : HandsOff seen fs t

/-- What a capture whose victims stay does among the steps of the runner. -/
abbrev SweepMeets (n : ClipId → UInt64) (new seen : ClipId → Prop) {α : Type} (post : α → Fs → Prop)
    (p : Act α) (fs : Fs) : Prop :=
  Upholds (fun s r v t => SweepEnv s r v t ∧ VictimStays s r v) (LegalQueue n new) (SeenStep n seen)
    (CaptureStep n new) post p fs

/-! ## The requests of a census -/

/-- The records found in the three directories. -/
structure Survey where
  inflight : List ClipQueueEntry
  delivered : List ClipQueueEntry
  pending : List ClipQueueEntry

namespace Survey

def all (x : Survey) : List ClipQueueEntry := x.inflight ++ x.delivered ++ x.pending

def census (x : Survey) : Census := censusOf x.inflight x.delivered x.pending

end Survey

/-- The scans of a census, one directory after the other. -/
def survey : Act (Except QueueError Survey) := do
  match ← readSidecars .inflight with
  | .error err => return .error err
  | .ok inflight =>
    match ← readSidecars .delivered with
    | .error err => return .error err
    | .ok delivered =>
      match ← readSidecars .pending with
      | .error err => return .error err
      | .ok pending => return .ok ⟨inflight, delivered, pending⟩

theorem takeCensus_eq : takeCensus = survey >>= fun r => pure (r.map Survey.census) := by
  unfold takeCensus survey
  rw [bind_assoc]
  refine congrArg _ (funext fun i => ?_)
  cases i with
  | error err => rfl
  | ok i =>
    dsimp only
    rw [bind_assoc]
    refine congrArg _ (funext fun d => ?_)
    cases d with
    | error err => rfl
    | ok d =>
      dsimp only
      rw [bind_assoc]
      refine congrArg _ (funext fun p => ?_)
      cases p <;> rfl

/-- Requests that look and change nothing. -/
def LooksOnly : Req → Prop
  | .readDir _ | .read _ => True
  | _ => False

theorem looksOnly_readSidecar (p : Path) : Within LooksOnly (readSidecar p) := by
  refine ⟨trivial, fun v => ?_⟩
  rcases v with _ | (_ | _) <;> exact within_pure _

theorem looksOnly_readSidecarsLoop (l : List Path) : Within LooksOnly (readSidecarsLoop l) := by
  induction l with
  | nil => exact within_pure _
  | cons p rest ih =>
    unfold readSidecarsLoop
    split_ifs
    · refine (looksOnly_readSidecar p).bind fun r => ?_
      rcases r with (⟨_, _ | _ | _⟩ | _ | _ | _) | _
      · exact ih
      · exact within_pure _
      · exact within_pure _
      · exact within_pure _
      · exact within_pure _
      · exact within_pure _
      · refine ih.bind fun r => ?_
        rcases r with _ | _ <;> exact within_pure _
    · exact ih

theorem looksOnly_readSidecars (d : Dir) : Within LooksOnly (readSidecars d) := by
  refine ⟨trivial, fun v => ?_⟩
  rcases v with _ | l
  · exact within_pure _
  · exact looksOnly_readSidecarsLoop l

theorem looksOnly_survey : Within LooksOnly survey := by
  refine (looksOnly_readSidecars _).bind fun r => ?_
  rcases r with _ | i
  · exact within_pure _
  · refine (looksOnly_readSidecars _).bind fun r => ?_
    rcases r with _ | d
    · exact within_pure _
    · refine (looksOnly_readSidecars _).bind fun r => ?_
      rcases r with _ | p <;> exact within_pure _

theorem looksOnly_takeCensus : Within LooksOnly takeCensus := by
  rw [takeCensus_eq]
  exact looksOnly_survey.bind fun _ => within_pure _

/-- A sidecar of the clip was read. -/
def WasRead (c : ClipId) (h : History Req Rep) : Prop :=
  ∃ p e, (⟨.read p, .ok (.sidecar e)⟩ : (r : Req) × Rep r) ∈ h ∧ e.clipId = c

theorem follows_readSidecar {p : Path} {h : History Req Rep} {r : Except QueueError ClipQueueEntry}
    (hf : Follows (readSidecar p) h r) : ∃ v : Except IoError Blob, h = [⟨.read p, v⟩] ∧
      ∀ e, v = .ok (.sidecar e) → r = .ok e := by
  obtain ⟨v, t, rfl, hv⟩ := follows_request_bind (r := Req.read p) hf
  rcases v with err | e | data
  · obtain ⟨rfl, rfl⟩ := follows_pure hv
    exact ⟨_, rfl, fun e he => by cases he⟩
  · obtain ⟨rfl, rfl⟩ := follows_pure hv
    exact ⟨_, rfl, fun e' he => by cases he; rfl⟩
  · obtain ⟨rfl, rfl⟩ := follows_pure hv
    exact ⟨_, rfl, fun e he => by cases he⟩

/-- A scan that succeeds returns every record it was answered. -/
theorem mem_of_readSidecarsLoop {l : List Path} {h : History Req Rep} {es : List ClipQueueEntry}
    (hf : Follows (readSidecarsLoop l) h (.ok es)) {p : Path} {e : ClipQueueEntry}
    (hmem : (⟨.read p, .ok (.sidecar e)⟩ : (r : Req) × Rep r) ∈ h) : e ∈ es := by
  induction l generalizing h es with
  | nil =>
    obtain ⟨rfl, -⟩ := follows_pure hf
    cases hmem
  | cons q rest ih =>
    unfold readSidecarsLoop at hf
    split_ifs at hf
    · obtain ⟨h₁, h₂, r, rfl, hr, hf⟩ := follows_bind hf
      obtain ⟨v, rfl, hv⟩ := follows_readSidecar hr
      rcases List.mem_append.mp hmem with hmem | hmem
      · -- the first record
        cases List.mem_singleton.mp hmem
        cases hv e rfl
        obtain ⟨h₃, h₄, r, -, -, hf⟩ := follows_bind hf
        cases r with
        | error err =>
          obtain ⟨-, heq⟩ := follows_pure hf
          cases heq
        | ok out =>
          obtain ⟨-, heq⟩ := follows_pure hf
          cases heq
          exact List.mem_cons_self
      · -- a later record: the loop goes on only past a vanished sidecar or a record
        rcases r with (⟨_, _ | _ | _⟩ | _ | _ | _) | sidecar
        · exact ih hf hmem
        · cases (follows_pure hf).2
        · cases (follows_pure hf).2
        · cases (follows_pure hf).2
        · cases (follows_pure hf).2
        · cases (follows_pure hf).2
        · obtain ⟨h₃, h₄, r, rfl, hrest, hf⟩ := follows_bind hf
          cases r with
          | error err =>
            obtain ⟨-, heq⟩ := follows_pure hf
            cases heq
          | ok out =>
            obtain ⟨rfl, heq⟩ := follows_pure hf
            cases heq
            rw [List.append_nil] at hmem
            exact List.mem_cons_of_mem _ (ih hrest hmem)
    · exact ih hf hmem

theorem mem_of_readSidecars {d : Dir} {h : History Req Rep} {es : List ClipQueueEntry}
    (hf : Follows (readSidecars d) h (.ok es)) {p : Path} {e : ClipQueueEntry}
    (hmem : (⟨.read p, .ok (.sidecar e)⟩ : (r : Req) × Rep r) ∈ h) : e ∈ es := by
  obtain ⟨v, t, rfl, hv⟩ := follows_request_bind (r := Req.readDir d) hf
  rcases List.mem_cons.mp hmem with heq | htail
  · cases heq
  · cases v with
    | error err => cases (follows_pure hv).2
    | ok paths => exact mem_of_readSidecarsLoop hv htail

/-- What a census was answered is among what it found. -/
theorem mem_of_survey {h : History Req Rep} {x : Survey} (hf : Follows survey h (.ok x)) {p : Path}
    {e : ClipQueueEntry} (hmem : (⟨.read p, .ok (.sidecar e)⟩ : (r : Req) × Rep r) ∈ h) :
    e ∈ x.all := by
  obtain ⟨h₁, h₂, i, rfl, hi, hf⟩ := follows_bind hf
  cases i with
  | error err => cases (follows_pure hf).2
  | ok i =>
    obtain ⟨h₃, h₄, d, rfl, hd, hf⟩ := follows_bind hf
    cases d with
    | error err => cases (follows_pure hf).2
    | ok d =>
      obtain ⟨h₅, h₆, p, rfl, hp, hf⟩ := follows_bind hf
      cases p with
      | error err => cases (follows_pure hf).2
      | ok p =>
        obtain ⟨rfl, heq⟩ := follows_pure hf
        cases heq
        simp only [List.append_nil, List.mem_append] at hmem
        simp only [Survey.all, List.mem_append]
        rcases hmem with hmem | hmem | hmem
        · exact Or.inl (Or.inl (mem_of_readSidecars hi hmem))
        · exact Or.inl (Or.inr (mem_of_readSidecars hd hmem))
        · exact Or.inr (mem_of_readSidecars hp hmem)

/-! ## One request beside the runner -/

section Requests

variable {n : ClipId → UInt64} {new seen : ClipId → Prop} {fs t u : Fs} {c : ClipId} {d : Dir}

/-- One request of the sweep. -/
theorem sweepMeets_request {α : Type} {post : α → Fs → Prop} {A : Fs → Prop} {r : Req}
    {f : Rep r → Act α} (hA : A fs)
    (hstable : ∀ s t, A s → LegalQueue n new s → SeenStep n seen s t → A t)
    (hstep : ∀ t v u, A t → LegalQueue n new t → SweepEnv t r v u → VictimStays t r v →
      CaptureStep n new t u ∧ SweepMeets n new seen post (f v) u) :
    SweepMeets n new seen post (Prog.request r >>= f) fs :=
  upholds_request hA (fun s t hrely hs _ ha => hstable s t ha hs hrely)
    fun t v u ha hl hv => hstep t v u ha hl hv.1 hv.2

theorem RunnerStep.onward (h : RunnerStep n fs t) (hl : LegalQueue n new fs) (c : ClipId) :
    (filesOf fs c).Onward (filesOf t c) := by
  rcases h.files c with heq | hm
  · rw [heq]
    exact .refl _
  · exact hm.onward (hl c)

/-- A request that only looks changes nothing. -/
theorem sweepEnv_read {p : Path} {v : Except IoError Blob} (h : SweepEnv t (.read p) v u) :
    u = t ∧ (t.get p = none ∧ v = .error .notFound ∨ (∃ b, t.get p = some b ∧ v = .ok b) ∨
      ∃ err, err ≠ .notFound ∧ v = .error err) := by
  rcases h with ⟨rfl, hv⟩ | ⟨⟨err, herr, rfl⟩, rfl⟩
  · refine ⟨rfl, ?_⟩
    cases hb : u.get p with
    | none =>
      rw [hb] at hv
      exact Or.inl ⟨rfl, hv⟩
    | some b =>
      rw [hb] at hv
      exact Or.inr (Or.inl ⟨b, rfl, hv⟩)
  · exact ⟨rfl, Or.inr (Or.inr ⟨err, herr, rfl⟩)⟩

theorem sweepEnv_readDir {v : Except IoError (List Path)} (h : SweepEnv t (.readDir d) v u) :
    u = t ∧ ((∃ l, t.Lists (fun p => p.inDir d) l ∧ v = .ok l) ∨ ∃ err, v = .error err) := by
  rcases h with ⟨rfl, hv⟩ | ⟨⟨err, -, rfl⟩, rfl⟩
  · exact ⟨rfl, Or.inl hv⟩
  · exact ⟨rfl, Or.inr ⟨err, rfl⟩⟩

theorem sweepEnv_removeFile {p : Path} {v : Except IoError Unit}
    (h : SweepEnv t (.removeFile p) v u) :
    (u = t.del p ∧ (v = .ok () ∨ v = .error .notFound)) ∨
      u = t ∧ ∃ err, err ≠ .notFound ∧ v = .error err := by
  rcases h with hv | ⟨⟨err, herr, rfl⟩, rfl⟩
  · refine Or.inl ?_
    cases hb : t.get p with
    | none =>
      simp only [Nominal, hb] at hv
      exact ⟨hv.2.trans (FileMap.del_of_get_none hb).symm, Or.inr hv.1⟩
    | some b =>
      simp only [Nominal, hb] at hv
      exact ⟨hv.2, Or.inl hv.1⟩
  · exact Or.inr ⟨rfl, err, herr, rfl⟩

/-- A sidecar of a legal queue is a record of its clip. -/
theorem LegalQueue.record (h : LegalQueue n new fs) (hd : d ≠ .corrupt) {b : Blob}
    (hb : fs.get (.sidecar d c) = some b) : ClipFiles.RecordOf c (n c) b := by
  cases d with
  | pending => exact (h c).pendingRecord b hb
  | inflight => exact (h c).inflightRecord b hb
  | delivered => exact (h c).deliveredRecord b hb
  | corrupt => exact (hd rfl).elim

end Requests

/-! ## One directory -/

/-- One of the records is the clip's. -/
def Among (es : List ClipQueueEntry) (c : ClipId) : Prop := c ∈ es.map (·.clipId)

/-- Every clip that has a sidecar in the directory is exempt or one of `S`. -/
def Covers (K : ClipId → Fs → Prop) (d : Dir) (S : ClipId → Prop) (fs : Fs) : Prop :=
  ∀ c, fs.get (.sidecar d c) ≠ none → K c fs ∨ S c

/-- What the records read from a directory tell: they cover the clips that have a sidecar there, but
for the exempt ones, and of each clip `Q` is known. -/
structure Surveyed (n : ClipId → UInt64) (K Q : ClipId → Fs → Prop) (d : Dir)
    (es : List ClipQueueEntry) (fs : Fs) : Prop where
  covers : Covers K d (Among es) fs
  sizes : ∀ e ∈ es, e.byteSize = n e.clipId
  known : ∀ e ∈ es, Q e.clipId fs
  nodup : (es.map (·.clipId)).Nodup

/-- The steps of the runner during the scan of a directory keep `P`: sidecars appear there for
exempt clips only, and what is known of a clip whose sidecar was read stays known. -/
structure Scan (n : ClipId → UInt64) (new seen : ClipId → Prop) (P : Fs → Prop)
    (K Q : ClipId → Fs → Prop) (d : Dir) : Prop where
  keeps : ∀ s t, P s → LegalQueue n new s → SeenStep n seen s t → P t
  appears : ∀ s t c, P s → LegalQueue n new s → SeenStep n seen s t →
    t.get (.sidecar d c) ≠ none → s.get (.sidecar d c) ≠ none ∨ K c t
  exempt : ∀ s t c, K c s → SeenStep n seen s t → K c t
  known : ∀ s t c, Q c s → LegalQueue n new s → SeenStep n seen s t → Q c t
  read : ∀ s c, P s → LegalQueue n new s → s.get (.sidecar d c) ≠ none → Q c s

section Scan

variable {n : ClipId → UInt64} {new seen : ClipId → Prop} {fs t : Fs} {c : ClipId} {d : Dir}
  {P : Fs → Prop} {K Q : ClipId → Fs → Prop} {es : List ClipQueueEntry}

theorem Covers.step {S : ClipId → Prop} (h : Covers K d S fs) (hscan : Scan n new seen P K Q d)
    (hP : P fs) (hl : LegalQueue n new fs) (hs : SeenStep n seen fs t) : Covers K d S t := by
  intro c hc
  rcases hscan.appears fs t c hP hl hs hc with hfs | hk
  · exact (h c hfs).imp_left fun hk => hscan.exempt fs t c hk hs
  · exact Or.inl hk

theorem Surveyed.step (h : Surveyed n K Q d es fs) (hscan : Scan n new seen P K Q d) (hP : P fs)
    (hl : LegalQueue n new fs) (hs : SeenStep n seen fs t) : Surveyed n K Q d es t where
  covers := h.covers.step hscan hP hl hs
  sizes := h.sizes
  known e he := hscan.known fs t _ (h.known e he) hl hs
  nodup := h.nodup

/-- Once the sidecar of `c` is read, `c` is exempt and `Q` holds of it. -/
theorem Scan.andRead (h : Scan n new seen P K Q d) (c : ClipId) :
    Scan n new seen (fun s => P s ∧ Q c s) (fun c' s => K c' s ∨ c' = c) Q d where
  keeps s t hs hl hst := ⟨h.keeps s t hs.1 hl hst, h.known s t c hs.2 hl hst⟩
  appears s t c' hs hl hst hc := (h.appears s t c' hs.1 hl hst hc).imp_right Or.inl
  exempt s t c' hk hst := hk.imp_left fun hk => h.exempt s t c' hk hst
  known := h.known
  read s c' hs := h.read s c' hs.1

/-- Once a path is dealt with, the others are to be read. -/
theorem Covers.tail {K' : ClipId → Fs → Prop} {p : Path} {rest : List Path}
    (h : Covers K d (fun c => .sidecar d c ∈ p :: rest) fs) (hK : ∀ c, K c fs → K' c fs)
    (hp : ∀ c, .sidecar d c = p → fs.get (.sidecar d c) ≠ none → K' c fs) :
    Covers K' d (fun c => .sidecar d c ∈ rest) fs := by
  intro c hc
  rcases h c hc with hk | hmem
  · exact Or.inl (hK c hk)
  · rcases List.mem_cons.mp hmem with heq | hmem
    · exact Or.inl (hp c heq hc)
    · exact Or.inr hmem

/-- A record read before a survey of the other clips. -/
theorem Surveyed.cons {e : ClipQueueEntry}
    (h : Surveyed n (fun c' s => K c' s ∨ c' = c) Q d es fs) (hc : e.clipId = c)
    (hsize : e.byteSize = n c) (hknown : Q c fs) (hnew : ∀ e' ∈ es, e'.clipId ≠ c) :
    Surveyed n K Q d (e :: es) fs := by
  subst hc
  refine ⟨fun c' hc' => ?_, fun e' he' => ?_, fun e' he' => ?_, ?_⟩
  · rcases h.covers c' hc' with (hk | rfl) | hin
    · exact Or.inl hk
    · exact Or.inr List.mem_cons_self
    · exact Or.inr (List.mem_cons_of_mem _ hin)
  · rcases List.mem_cons.mp he' with rfl | he'
    · exact hsize
    · exact h.sizes e' he'
  · rcases List.mem_cons.mp he' with rfl | he'
    · exact hknown
    · exact h.known e' he'
  · refine List.nodup_cons.mpr ⟨fun hin => ?_, h.nodup⟩
    obtain ⟨e', he', hid⟩ := List.mem_map.mp hin
    exact hnew e' he' hid

/-- The loop over a listing. -/
theorem census_readSidecarsLoop (hd : d ≠ .corrupt) (hscan : Scan n new seen P K Q d)
    {l : List Path} (hl : ∀ p ∈ l, p.inDir d = true) (hnd : l.Nodup) (hfs : P fs)
    (hread : Covers K d (fun c => .sidecar d c ∈ l) fs) :
    SweepMeets n new seen (fun r t => P t ∧ ∀ es, r = .ok es → Surveyed n K Q d es t ∧
      ∀ e ∈ es, .sidecar d e.clipId ∈ l) (readSidecarsLoop l) fs := by
  induction l generalizing fs K P with
  | nil =>
    refine upholds_pure ⟨hfs, fun es hes => ?_⟩
    cases hes
    exact ⟨⟨fun c hc => Or.inl ((hread c hc).resolve_right (by simp)), by simp, by simp, by simp⟩,
      by simp⟩
  | cons p rest ih =>
    obtain ⟨hp, hnd'⟩ := List.nodup_cons.mp hnd
    have hrest : ∀ q ∈ rest, q.inDir d = true := fun q hq => hl q (List.mem_cons_of_mem _ hq)
    unfold readSidecarsLoop
    split_ifs with hx
    · obtain ⟨c, rfl⟩ := inDir_and_hasExt_iff.mp ⟨hl p List.mem_cons_self, hx⟩
      refine sweepMeets_request (r := .read (.sidecar d c))
        (A := fun s => P s ∧ Covers K d (fun c' => .sidecar d c' ∈ .sidecar d c :: rest) s)
        ⟨hfs, hread⟩
        (fun s t hs hlegal hst =>
          ⟨hscan.keeps s t hs.1 hlegal hst, hs.2.step hscan hs.1 hlegal hst⟩) ?_
      rintro t v u ⟨ht, hto⟩ hlegal hv -
      obtain ⟨rfl, hv⟩ := sweepEnv_read hv
      refine ⟨.refl _, ?_⟩
      rcases hv with ⟨hnone, rfl⟩ | ⟨b, hb, rfl⟩ | ⟨err, herr, rfl⟩
      · -- the sidecar vanished
        have hto' : Covers K d (fun c' => .sidecar d c' ∈ rest) u :=
          hto.tail (fun _ hk => hk) fun c' heq hc' => by
            cases heq
            exact (hc' hnone).elim
        refine (ih hscan hrest hnd' ht hto').mono fun r s hr => ⟨hr.1, fun es hes => ?_⟩
        obtain ⟨hsurveyed, hmem⟩ := hr.2 es hes
        exact ⟨hsurveyed, fun e he => List.mem_cons_of_mem _ (hmem e he)⟩
      · obtain ⟨e, rfl, hc, hsize⟩ := hlegal.record hd hb
        -- from here on the clip counts as read
        have hto' : Covers (fun c' s => K c' s ∨ c' = c) d (fun c' => .sidecar d c' ∈ rest) u :=
          hto.tail (fun _ hk => Or.inl hk) fun c' heq _ => by
            cases heq
            exact Or.inr rfl
        have hknown : Q c u := hscan.read u c ht hlegal (by simp [hb])
        refine (ih (hscan.andRead c) hrest hnd' ⟨ht, hknown⟩ hto').bind fun r s hr => ?_
        cases r with
        | error err =>
          refine upholds_pure ⟨hr.1.1, fun es hes => ?_⟩
          cases hes
        | ok out =>
          obtain ⟨hsurveyed, hmem⟩ := hr.2 out rfl
          refine upholds_pure ⟨hr.1.1, fun es hes => ?_⟩
          cases hes
          refine ⟨hsurveyed.cons hc hsize hr.1.2 fun e' he' hid => hp (hid ▸ hmem e' he'), ?_⟩
          intro e' he'
          rcases List.mem_cons.mp he' with rfl | he'
          · rw [hc]
            exact List.mem_cons_self
          · exact List.mem_cons_of_mem _ (hmem e' he')
      · -- the read fails, and with it the census
        cases err with
        | notFound => exact (herr rfl).elim
        | storageFull => exact upholds_pure ⟨ht, fun es hes => by cases hes⟩
        | other errno text => exact upholds_pure ⟨ht, fun es hes => by cases hes⟩
    · -- a file that is no sidecar
      have hto' : Covers K d (fun c' => .sidecar d c' ∈ rest) fs :=
        hread.tail (fun _ hk => hk) fun c' heq _ => by
          subst heq
          simp [Path.hasExt] at hx
      refine (ih hscan hrest hnd' hfs hto').mono fun r s hr => ⟨hr.1, fun es hes => ?_⟩
      obtain ⟨hsurveyed, hmem⟩ := hr.2 es hes
      exact ⟨hsurveyed, fun e he => List.mem_cons_of_mem _ (hmem e he)⟩

theorem census_readSidecars (hd : d ≠ .corrupt) (hscan : Scan n new seen P K Q d) (hfs : P fs) :
    SweepMeets n new seen (fun r t => P t ∧ ∀ es, r = .ok es → Surveyed n K Q d es t)
      (readSidecars d) fs := by
  refine sweepMeets_request (r := .readDir d) hfs hscan.keeps fun t v u ht hlegal hv _ => ?_
  obtain ⟨rfl, ⟨l, hl, rfl⟩ | ⟨err, rfl⟩⟩ := sweepEnv_readDir hv
  · have hread : Covers K d (fun c => .sidecar d c ∈ l) u := fun c hc =>
      Or.inr (hl.mem.mpr ⟨by simp [Path.inDir], Option.isSome_iff_ne_none.mpr hc⟩)
    exact ⟨.refl _, (census_readSidecarsLoop hd hscan (fun p hp => (hl.mem.mp hp).1) hl.nodup ht
      hread).mono fun r s hr => ⟨hr.1, fun es hes => (hr.2 es hes).1⟩⟩
  · exact ⟨.refl _, upholds_pure ⟨ht, fun es hes => by cases hes⟩⟩

end Scan

/-! ## The whole census -/

/-- The queue a sweep finds: the clips of `new` are not in it yet, listed clips of `pending/` have
their media, those with media are among `had`, and if it `fits` neither the clips nor their
bytes overflow a counter. -/
structure Sweepable (n : ClipId → UInt64) (new : ClipId → Prop) (had : Finset ClipId)
    (fits : Prop) (fs : Fs) : Prop where
  legal : LegalQueue n new fs
  fresh : ∀ c, new c → ¬(filesOf fs c).Stored
  paired : ∀ c, (filesOf fs c).pendingSidecar ≠ none → (filesOf fs c).HasMedia
  hadMedia : mediaClips fs ⊆ had
  clips : fits → (clipsOf fs).card < 2 ^ 32
  bytes : fits → ∑ c ∈ had, (n c).toNat < 2 ^ 64

/-- What is seen of a clip in `inflight/` stays seen unless it is still listed in `pending/`. -/
def Listable (seen : ClipId → Prop) (c : ClipId) (fs : Fs) : Prop :=
  seen c ∨ fs.get (.sidecar .pending c) ≠ none

/-- The clip was read in `inflight/`, or is one of `seen`. -/
def SeenAmong (seen : ClipId → Prop) (i : List ClipQueueEntry) (c : ClipId) (_ : Fs) : Prop :=
  seen c ∨ Among i c

/-- The clip was delivered. -/
def Closed (c : ClipId) (fs : Fs) : Prop := fs.get (.sidecar .delivered c) ≠ none

/-- The clip had media and was not delivered. -/
def HadMedia (had : Finset ClipId) (d : List ClipQueueEntry) (c : ClipId) (_ : Fs) : Prop :=
  c ∈ had ∧ ¬Among d c

/-- `inflight/` has been scanned. -/
structure InflightScanned (n : ClipId → UInt64) (new seen : ClipId → Prop) (had : Finset ClipId)
    (fits : Prop) (i : List ClipQueueEntry) (fs : Fs) : Prop where
  sweepable : Sweepable n new had fits fs
  inflight : Surveyed n (Listable seen) (fun _ _ => True) .inflight i fs

/-- `inflight/` and `delivered/` have been scanned. -/
structure DeliveredScanned (n : ClipId → UInt64) (new seen : ClipId → Prop) (had : Finset ClipId)
    (fits : Prop) (i d : List ClipQueueEntry) (fs : Fs) : Prop extends
    InflightScanned n new seen had fits i fs where
  delivered : Surveyed n (SeenAmong seen i) Closed .delivered d fs

/-- The records of the three directories, read one after the other, cover the queue, but for the
clips of `seen`. -/
structure Counted (n : ClipId → UInt64) (new seen : ClipId → Prop) (had : Finset ClipId)
    (fits : Prop) (x : Survey) (fs : Fs) : Prop extends
    DeliveredScanned n new seen had fits x.inflight x.delivered fs where
  pending : Surveyed n (SeenAmong seen x.inflight) (HadMedia had x.delivered) .pending x.pending fs

section Census

variable {n : ClipId → UInt64} {new seen : ClipId → Prop} {had : Finset ClipId} {fits : Prop}
  {fs t : Fs} {c : ClipId} {i d : List ClipQueueEntry} {x : Survey}

theorem Sweepable.runnerStep (h : Sweepable n new had fits fs) (hs : RunnerStep n fs t) :
    Sweepable n new had fits t where
  legal := h.legal.runnerStep hs
  fresh c hnew hst := h.fresh c hnew (mem_clipsOf.mp (hs.clipsOf_subset (mem_clipsOf.mpr hst)))
  paired c hp := by
    rcases hs.files c with heq | hm
    · rw [heq] at hp ⊢
      exact h.paired c hp
    · exact hm.paired (h.legal c) (h.paired c) hp
  hadMedia := (hs.mediaClips_subset h.legal).trans h.hadMedia
  clips hf := (Finset.card_le_card hs.clipsOf_subset).trans_lt (h.clips hf)
  bytes := h.bytes

theorem Listable.step (h : Listable seen c fs) (hs : SeenStep n seen fs t) : Listable seen c t := by
  rcases h with hseen | hps
  · exact Or.inl hseen
  · by_cases ht : t.get (.sidecar .pending c) = none
    · exact Or.inl (hs.handsOff c hps ht)
    · exact Or.inr ht

/-- A sidecar arrives in `inflight/` from `pending/`. -/
theorem scan_inflight : Scan n new seen (Sweepable n new had fits) (Listable seen)
    (fun _ _ => True) .inflight where
  keeps _ _ hs _ hst := hs.runnerStep hst.runner
  appears s t c _ hl hst hc := by
    rcases (hst.runner.onward hl c).inflight hc with his | hps
    · exact Or.inl his
    · exact Or.inr (Listable.step (Or.inr hps) hst)
  exempt _ _ _ hk hst := hk.step hst
  known _ _ _ _ _ _ := trivial
  read _ _ _ _ _ := trivial

theorem InflightScanned.step (h : InflightScanned n new seen had fits i fs)
    (hs : SeenStep n seen fs t) : InflightScanned n new seen had fits i t where
  sweepable := h.sweepable.runnerStep hs.runner
  inflight := h.inflight.step scan_inflight h.sweepable h.sweepable.legal hs

/-- A clip that has left `inflight/` by now has been seen there. -/
theorem InflightScanned.among (h : InflightScanned n new seen had fits i fs)
    (his : (filesOf fs c).inflightSidecar ≠ none) (hps : (filesOf fs c).pendingSidecar = none) :
    SeenAmong seen i c t := by
  rcases h.inflight.covers c his with (hseen | hp) | hin
  · exact Or.inl hseen
  · exact (hp hps).elim
  · exact Or.inr hin

theorem scan_delivered : Scan n new seen (InflightScanned n new seen had fits i)
    (SeenAmong seen i) Closed .delivered where
  keeps _ _ hs _ hst := hs.step hst
  appears s t c hs hl hst hc := by
    rcases (hst.runner.onward hl c).delivered hc with hds | ⟨his, hps⟩
    · exact Or.inl hds
    · exact Or.inr (hs.among his hps)
  exempt _ _ _ hk _ := hk
  known s t c hs hl hst := (hst.runner.onward hl c).keepsDelivered hs
  read _ _ _ _ hc := hc

theorem DeliveredScanned.step (h : DeliveredScanned n new seen had fits i d fs)
    (hs : SeenStep n seen fs t) : DeliveredScanned n new seen had fits i d t where
  toInflightScanned := h.toInflightScanned.step hs
  delivered := h.delivered.step scan_delivered h.toInflightScanned h.sweepable.legal hs

theorem scan_pending : Scan n new seen (DeliveredScanned n new seen had fits i d)
    (SeenAmong seen i) (HadMedia had d) .pending where
  keeps _ _ hs _ hst := hs.step hst
  appears s t c hs hl hst hc := by
    by_cases hps : s.get (.sidecar .pending c) = none
    · rcases (hst.runner.onward hl c).pending hc with hps' | his
      · exact Or.inl hps'
      · exact Or.inr (hs.among his hps)
    · exact Or.inl hps
  exempt _ _ _ hk _ := hk
  known _ _ _ hq _ _ := hq
  read s c hs hl hc := by
    refine ⟨hs.sweepable.hadMedia (hl.mem_mediaClips.mpr (hs.sweepable.paired c hc)), fun hin => ?_⟩
    obtain ⟨e, he, rfl⟩ := List.mem_map.mp hin
    exact hc ((hl e.clipId).closed (hs.delivered.known e he)).2.1

theorem Counted.step (h : Counted n new seen had fits x fs) (hs : SeenStep n seen fs t) :
    Counted n new seen had fits x t where
  toDeliveredScanned := h.toDeliveredScanned.step hs
  pending := h.pending.step scan_pending h.toDeliveredScanned h.sweepable.legal hs

/-- Whatever the runner moves meanwhile, the census covers the queue at its end. -/
theorem census_survey (h : Sweepable n new had fits fs) :
    SweepMeets n new seen (fun r t => ∀ x, r = .ok x → Counted n new seen had fits x t) survey
      fs := by
  refine (census_readSidecars (by decide) (scan_inflight) h).bind fun r t hr => ?_
  cases r with
  | error err => exact upholds_pure fun x hx => by cases hx
  | ok i =>
    have hi : InflightScanned n new seen had fits i t := ⟨hr.1, hr.2 i rfl⟩
    refine (census_readSidecars (by decide) scan_delivered hi).bind fun r t hr => ?_
    cases r with
    | error err => exact upholds_pure fun x hx => by cases hx
    | ok d =>
      have hd : DeliveredScanned n new seen had fits i d t := ⟨hr.1, hr.2 d rfl⟩
      refine (census_readSidecars (by decide) scan_pending hd).bind fun r t hr => ?_
      cases r with
      | error err => exact upholds_pure fun x hx => by cases hx
      | ok p =>
        refine upholds_pure fun x hx => ?_
        cases hx
        exact ⟨hr.1, hr.2 p rfl⟩

/-! ## The totals -/

theorem addSlots_toNat (clips : UInt32) (es : List ClipQueueEntry) :
    (addSlots clips es).toNat = min (clips.toNat + es.length) (2 ^ 32 - 1) := by
  induction es generalizing clips with
  | nil =>
    have := clips.toNat_lt
    simp only [addSlots, List.foldl_nil, List.length_nil]
    omega
  | cons e rest ih =>
    have hstep := ih (saturatingAdd32 clips 1)
    rw [saturatingAdd32_toNat] at hstep
    have hone : (1 : UInt32).toNat = 1 := rfl
    simp only [addSlots, List.foldl_cons, List.length_cons] at hstep ⊢
    omega

theorem addBytes_toNat (bytes : UInt64) (es : List ClipQueueEntry) :
    (addBytes bytes es).toNat =
      min (bytes.toNat + (es.map fun e => e.byteSize.toNat).sum) (2 ^ 64 - 1) := by
  induction es generalizing bytes with
  | nil =>
    have := bytes.toNat_lt
    simp only [addBytes, List.foldl_nil, List.map_nil, List.sum_nil]
    omega
  | cons e rest ih =>
    have hstep := ih (saturatingAdd64 bytes e.byteSize)
    rw [saturatingAdd64_toNat] at hstep
    simp only [addBytes, List.foldl_cons, List.map_cons, List.sum_cons] at hstep ⊢
    omega

/-- A sum that fits is exact in both build profiles. -/
theorem sumBytes_eq (profile : Profile) {bs : List UInt64}
    (h : (bs.map UInt64.toNat).sum < 2 ^ 64) :
    ∃ total, sumBytes profile bs = some total ∧ total.toNat = (bs.map UInt64.toNat).sum := by
  induction bs with
  | nil => exact ⟨0, rfl, rfl⟩
  | cons b rest ih =>
    rw [List.map_cons, List.sum_cons] at h ⊢
    obtain ⟨total, htotal, hsum⟩ := ih (by omega)
    refine ⟨b + total, ?_, ?_⟩
    · rw [sumBytes, htotal]
      simp only [hsum]
      rw [if_pos (Or.inl h)]
    · rw [UInt64.toNat_add, hsum]
      omega

/-- A sum over the clips of a list is at most the sum along the list. -/
theorem sum_toFinset_le (f : ClipId → ℕ) (l : List ClipId) :
    ∑ c ∈ l.toFinset, f c ≤ (l.map f).sum := by
  induction l with
  | nil => simp
  | cons a rest ih =>
    rw [List.toFinset_cons, List.map_cons, List.sum_cons]
    by_cases ha : a ∈ rest.toFinset
    · rw [Finset.insert_eq_of_mem ha]
      omega
    · rw [Finset.sum_insert ha]
      omega

/-- A count as a `u32`, saturating. -/
theorem cappedCount_toNat (k : ℕ) :
    (if k < 2 ^ 32 then UInt32.ofNat k else 4294967295).toNat = min k (2 ^ 32 - 1) := by
  split_ifs with hk
  · rw [UInt32.toNat_ofNat_of_lt' hk]
    omega
  · have hmax : (4294967295 : UInt32).toNat = 2 ^ 32 - 1 := rfl
    omega

theorem candidates_length (i d p : List ClipQueueEntry) :
    (censusOf i d p).candidates.length = (d.filter isUndeliverable).length + p.length := by
  simp [censusOf, sortByKey]

/-- Only the candidates of `pending/` have bytes on disk. -/
theorem candidates_bytes (i d p : List ClipQueueEntry) :
    (((censusOf i d p).candidates.map EvictableEntry.onDiskBytes).map UInt64.toNat).sum =
      (p.map fun e => e.byteSize.toNat).sum := by
  have hperm : ∀ es : List EvictableEntry, (sortByKey es).Perm es :=
    fun es => List.perm_insertionSort _ es
  have hzero : ∀ es : List ClipQueueEntry, ((es.map (EvictableEntry.mk .deliveredUndeliverable)).map
      fun e => e.onDiskBytes.toNat).sum = 0 := by
    intro es
    induction es with
    | nil => rfl
    | cons e rest ih => simpa [EvictableEntry.onDiskBytes] using ih
  have hpending : ((p.map (EvictableEntry.mk .pending)).map fun e => e.onDiskBytes.toNat) =
      p.map fun e => e.byteSize.toNat := by
    rw [List.map_map]
    rfl
  rw [List.map_map]
  simp only [censusOf, List.map_append, List.sum_append]
  rw [((hperm _).map _).sum_eq, ((hperm _).map _).sum_eq]
  show ((_ : List EvictableEntry).map fun e => e.onDiskBytes.toNat).sum +
    ((_ : List EvictableEntry).map fun e => e.onDiskBytes.toNat).sum = _
  rw [hzero, hpending, zero_add]

/-- Every clip of the queue is among the records, or one of `seen`. -/
theorem Counted.clip (h : Counted n new seen had fits x fs) (hc : c ∈ clipsOf fs) :
    seen c ∨ Among x.all c := by
  have hall : Among x.all c ↔ Among x.inflight c ∨ Among x.delivered c ∨ Among x.pending c := by
    simp only [Among, Survey.all, List.map_append, List.mem_append, or_assoc]
  have hp : fs.get (.sidecar .pending c) ≠ none → seen c ∨ Among x.all c := fun hs => by
    rcases h.pending.covers c hs with (hseen | hin) | hin
    · exact Or.inl hseen
    · exact Or.inr (hall.mpr (Or.inl hin))
    · exact Or.inr (hall.mpr (Or.inr (Or.inr hin)))
  have hi : fs.get (.sidecar .inflight c) ≠ none → seen c ∨ Among x.all c := fun hs => by
    rcases h.inflight.covers c hs with (hseen | hps) | hin
    · exact Or.inl hseen
    · exact hp hps
    · exact Or.inr (hall.mpr (Or.inl hin))
  have hd : fs.get (.sidecar .delivered c) ≠ none → seen c ∨ Among x.all c := fun hs => by
    rcases h.delivered.covers c hs with (hseen | hin) | hin
    · exact Or.inl hseen
    · exact Or.inr (hall.mpr (Or.inl hin))
    · exact Or.inr (hall.mpr (Or.inr (Or.inl hin)))
  have hlegal := h.sweepable.legal c
  rcases mem_clipsOf.mp hc with hpm | hps | him | his | hdm | hds
  · -- media in `pending/` has a sidecar somewhere
    rcases hlegal.pendingListed hpm with hnew | hps | his
    · exact (h.sweepable.fresh c hnew (Or.inl hpm)).elim
    · exact hp hps
    · exact hi his
  · exact hp hps
  · rcases hlegal.inflightListed him with hps | his
    · exact hp hps
    · exact hi his
  · exact hi his
  · exact (hdm hlegal.noDelivered).elim
  · exact hd hds

/-- A clip with media is among the records of `inflight/` or `pending/`. -/
theorem Counted.media (h : Counted n new seen had fits x fs)
    (hseen : ∀ c, seen c → new c ∨ Among x.all c) (hc : c ∈ mediaClips fs) :
    Among (x.inflight ++ x.pending) c := by
  have hm := h.sweepable.legal.mem_mediaClips.mp hc
  have hst : (filesOf fs c).Stored := hm.imp_right fun him => Or.inr (Or.inl him)
  have hin : Among x.all c := by
    rcases h.clip (mem_clipsOf.mpr hst) with hs | hin
    · exact (hseen c hs).resolve_left fun hnew => h.sweepable.fresh c hnew hst
    · exact hin
  -- a delivered clip has none
  have hopen : ¬Among x.delivered c := by
    intro hd
    obtain ⟨e, he, rfl⟩ := List.mem_map.mp hd
    obtain ⟨hpm, -, him, -⟩ := (h.sweepable.legal e.clipId).closed (h.delivered.known e he)
    exact hm.elim (fun hne => hne hpm) fun hne => hne him
  simp only [Among, Survey.all, List.map_append, List.mem_append] at hin hopen ⊢
  tauto

/-- The bytes recorded in `pending/` are those of clips that had media. -/
theorem Counted.pending_bytes (h : Counted n new seen had fits x fs) :
    (x.pending.map fun e => e.byteSize.toNat).sum ≤ ∑ c ∈ had, (n c).toNat := by
  have hsizes : (x.pending.map fun e => e.byteSize.toNat) =
      (x.pending.map (·.clipId)).map fun c => (n c).toNat := by
    rw [List.map_map]
    exact List.map_congr_left fun e he => congrArg UInt64.toNat (h.pending.sizes e he)
  rw [hsizes, ← List.sum_toFinset _ h.pending.nodup]
  refine Finset.sum_le_sum_of_subset fun c hc => ?_
  obtain ⟨e, he, rfl⟩ := List.mem_map.mp (List.mem_toFinset.mp hc)
  exact (h.pending.known e he).1

/-- The totals bound the clips and the bytes of a queue that fits, if the clips of `seen` are among
the records. -/
theorem Counted.totals (h : Counted n new seen had fits x fs) (hf : fits)
    (hseen : ∀ c, seen c → new c ∨ Among x.all c) {profile : Profile} {clips : UInt32}
    {bytes : UInt64} (ht : censusTotals profile x.census = some (clips, bytes)) :
    (clipsOf fs).card ≤ clips.toNat ∧ ∑ c ∈ mediaClips fs, (n c).toNat ≤ bytes.toNat := by
  have hfit := h.sweepable.bytes hf
  have hclips := h.sweepable.clips hf
  have hpending := h.pending_bytes
  have hsmall : ((x.census.candidates.map EvictableEntry.onDiskBytes).map UInt64.toNat).sum <
      2 ^ 64 := by
    rw [Survey.census, candidates_bytes]
    omega
  obtain ⟨total, htotal, hsum⟩ := sumBytes_eq profile hsmall
  rw [Survey.census, candidates_bytes] at hsum
  simp only [censusTotals, htotal, Option.some.injEq, Prod.mk.injEq] at ht
  obtain ⟨rfl, rfl⟩ := ht
  constructor
  · -- each clip stored is of a record, and each record counts once
    have hcard : (clipsOf fs).card ≤ x.inflight.length + x.delivered.length + x.pending.length := by
      have hsub : clipsOf fs ⊆ (x.all.map (·.clipId)).toFinset := fun c hc => by
        refine List.mem_toFinset.mpr ((h.clip hc).elim (fun hs => ?_) id)
        exact (hseen c hs).resolve_left fun hnew =>
          h.sweepable.fresh c hnew (mem_clipsOf.mp hc)
      have hle := (Finset.card_le_card hsub).trans (List.toFinset_card_le _)
      simpa only [Survey.all, List.length_append, List.length_map] using hle
    have hfilter : (x.delivered.filter fun e => !isUndeliverable e).length +
        (x.delivered.filter isUndeliverable).length = x.delivered.length := by
      rw [List.length_eq_length_filter_add (l := x.delivered) isUndeliverable]
      omega
    have hfloor : x.census.floorClips =
        addSlots (addSlots 0 x.inflight) (x.delivered.filter fun e => !isUndeliverable e) := rfl
    have hzero : (0 : UInt32).toNat = 0 := rfl
    rw [saturatingAdd32_toNat, hfloor, addSlots_toNat, addSlots_toNat, Survey.census,
      candidates_length, cappedCount_toNat]
    omega
  · -- each clip with media is of an open record, which has its size
    have hhad := Finset.sum_le_sum_of_subset (f := fun c => (n c).toNat) h.sweepable.hadMedia
    have hsub : mediaClips fs ⊆ ((x.inflight ++ x.pending).map (·.clipId)).toFinset :=
      fun c hc => List.mem_toFinset.mpr (h.media hseen hc)
    have hle := (Finset.sum_le_sum_of_subset (f := fun c => (n c).toNat) hsub).trans
      (sum_toFinset_le _ _)
    have hbytes : ∀ es : List ClipQueueEntry, (∀ e ∈ es, e.byteSize = n e.clipId) →
        ((es.map (·.clipId)).map fun c => (n c).toNat) = es.map fun e => e.byteSize.toNat := by
      intro es hes
      rw [List.map_map]
      exact List.map_congr_left fun e he => (congrArg UInt64.toNat (hes e he)).symm
    rw [List.map_append, List.map_append, List.sum_append, hbytes _ h.inflight.sizes,
      hbytes _ h.pending.sizes] at hle
    have hfloor : x.census.floorBytes = addBytes 0 x.inflight := rfl
    have hzero : (0 : UInt64).toNat = 0 := rfl
    rw [saturatingAdd64_toNat, hfloor, addBytes_toNat]
    omega

end Census

end Perchstation
