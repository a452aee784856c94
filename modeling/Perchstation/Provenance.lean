import Perchstation.Accepted
import Perchstation.Provenance.Operations

/-!
# Provenance — every record and every upload goes back to what happened

The tasks of a station run side by side, one request at a time, in any order; any call may fail, and
the process may be stopped between any two requests and started again.  Through all of that a record
says of its upload and its classification only what perchpub has said, and an upload sends footage that
was taken for its clip, to the configured authority.
-/

namespace Perchstation

open Interleaving Resumption QueueStore

/-- What `serve` runs: the boot, the camera, the capture inbox, the delivery runner and the poller. -/
inductive Task
  | boot
  | camera
  | capture
  | delivery
  | classify
  deriving DecidableEq

/-- The program, its result dropped. -/
def forget {α : Type} (p : Act α) : Act Unit := p >>= fun _ => pure ()

namespace Task

/-- The programs a task starts; arguments and times are arbitrary. -/
def Launches (cfg : Config) : Task → Act Unit → Fs × List Deed → Prop
  | .boot, p, _ => p = forget reconcileInflight
  | .camera, p, _ => ∃ name b, p = forget (write (.source name) b)
  | .capture, p, _ => ∃ policy c name clipMeta,
      p = forget (submit cfg.profile policy c (.source name) clipMeta)
  | .delivery, p, _ => p = forget (tryOnce cfg.client cfg.schedule)
  | .classify, p, _ =>
      (∃ known, p = forget (ClassifyPoller.pollRound cfg.client cfg.showUuid known)) ∨
        ∃ known, p = forget (ClassifyPoller.pruneRound cfg.retentionHours known)

/-- The tasks and what is left of their programs, the files and the record of all requests. -/
abbrev Tasks : Type := Pool Req Rep (fun _ : Task => Unit) (Fs × List Deed)

/-- No task is at work. -/
def atRest (fs : Fs) (deeds : List Deed) : Tasks := ⟨fun _ => pure (), (fs, deeds)⟩

/-- One request of one task, the start of a task's next program, or a process stop. -/
abbrev Step (cfg : Config) : Tasks → Option (Move Task Rep) → Tasks → Prop :=
  LifeStep (fun _ => Witnessed) (Launches cfg) fun _ => ()

end Task

/-! ## The invariant -/

/-- What a request that has been made goes back to, `before` being what was on record then. -/
def Justified (client : PerchpubClient) (before : List Deed) : Deed → Prop
  | ⟨fs, .post url file name, _⟩ => ∃ u c, client.allowed "/api/v1/upload/" = .ok u ∧ url = u.text ∧
      file = .media .inflight c ∧ name = c ++ Ext.mp4.suffix ∧
      ∀ b, fs.get file = some b → BroughtIn (onRecord before) c b
  | ⟨_, .getUrl url, _⟩ => ∃ path u, client.allowed path = .ok u ∧ url = u.text
  | _ => True

/-- Records are sourced, media is footage taken for its clip, and requests fit what was before. -/
structure Founded (client : PerchpubClient) (showUuid : Uuid → String) (s : Fs × List Deed) : Prop where
  records : ∀ d c x e, x.IsRecord → s.1.get (.queue d c x) = some (.sidecar e) →
    e.clipId = c ∧ Sourced client showUuid (onRecord s.2) e
  media : ∀ d c b, s.1.get (.media d c) = some b → BroughtIn (onRecord s.2) c b
  requests : ∀ before deed after, s.2 = before ++ deed :: after → Justified client before deed

/-- The record grows, and what is traced stays so. -/
def Works (client : PerchpubClient) (showUuid : Uuid → String) (s t : Fs × List Deed) : Prop :=
  seen s ≤ seen t ∧ (Founded client showUuid s → Founded client showUuid t)

/-- No copy that is under way is touched. -/
def SparesCopies (s t : Fs × List Deed) : Prop :=
  ∀ d c, t.1.get (.queue d c .mp4Tmp) = s.1.get (.queue d c .mp4Tmp)

section Requests

variable {client : PerchpubClient} {showUuid : Uuid → String} {s t : Fs × List Deed} {r : Req}
  {v : Rep r}

theorem seen_le_of_witnessed (h : Witnessed s r v t) : seen s ≤ seen t := by
  intro x hx
  show x ∈ t.2
  rw [h.2]
  exact List.mem_append_left _ hx

theorem mem_seen_of_witnessed (h : Witnessed s r v t) : (⟨s.1, r, v⟩ : Deed) ∈ seen t := by
  show _ ∈ t.2
  rw [h.2]
  exact List.mem_append_right _ (List.mem_singleton_self _)

theorem changed_of_answer {fs u : Fs} (h : Nominal fs r v u ∨ Torn fs r v u) : Changed fs r u :=
  h.elim changed_of_nominal fun h => changed_of_faulty h.1

/-- What the files and the new request must satisfy for a traced state to stay traced. -/
theorem Founded.step (hs : Founded client showUuid s) (h : Witnessed s r v t)
    (hrecords : ∀ d c x e, x.IsRecord → t.1.get (.queue d c x) = some (.sidecar e) →
      e.clipId = c ∧ Sourced client showUuid (seen t) e)
    (hmedia : ∀ d c b, t.1.get (.media d c) = some b → BroughtIn (seen t) c b)
    (hjust : Justified client s.2 ⟨s.1, r, v⟩) : Founded client showUuid t := by
  refine ⟨hrecords, hmedia, fun before deed after heq => ?_⟩
  rw [h.2] at heq
  rcases List.eq_nil_or_concat after with rfl | ⟨rest, last, rfl⟩
  · obtain ⟨rfl, hlast⟩ := List.append_inj' heq rfl
    obtain rfl := (List.cons.inj hlast).1
    exact hjust
  · have hcut : s.2 ++ [⟨s.1, r, v⟩] = (before ++ deed :: rest) ++ [last] := by
      rw [heq]
      simp
    exact hs.requests before deed rest (List.append_inj' hcut rfl).1

section Files

variable {fs u : Fs} {K : Set Deed} {d : Dir} {c : ClipId}

/-- The record that a covered request leaves at a place was at the place of one before, or is sourced. -/
theorem record_of_covered {x : Ext} {e : ClipQueueEntry} (h : Nominal fs r v u ∨ Torn fs r v u)
    (hr : Covered client showUuid r K) (hx : x.IsRecord)
    (he : u.get (.queue d c x) = some (.sidecar e)) :
    (∃ d' x', x'.IsRecord ∧ fs.get (.queue d' c x') = some (.sidecar e)) ∨
      e.clipId = c ∧ Sourced client showUuid K e := by
  cases changed_of_answer h with
  | same => exact Or.inl ⟨d, x, hx, he⟩
  | @moved src dst b hb =>
    -- a record arrives by a rename of the clip's own file
    simp only [FileMap.get_put, FileMap.get_del] at he
    split_ifs at he with hdst hsrc
    · obtain rfl := Option.some.inj he
      rcases hr with ⟨d₁, d₂, c', rfl, rfl⟩ | ⟨d₁, d₂, c', y, hy, rfl, rfl⟩
      · obtain ⟨-, -, rfl⟩ := Path.queue.inj hdst
        exact hx.elim
      · obtain ⟨-, rfl, -⟩ := Path.queue.inj hdst
        exact Or.inl ⟨d₁, y, hy, hb⟩
    · exact Or.inl ⟨d, x, hx, he⟩
  | copied b => exact hr.elim
  | removed =>
    rw [FileMap.get_del] at he
    split_ifs at he
    exact Or.inl ⟨d, x, hx, he⟩
  | @written p contents b =>
    -- what is written is sourced; a torn write leaves the old record or the new one
    cases contents with
    | bytes data => exact hr.elim
    | sidecar e' =>
      obtain ⟨⟨d', rfl⟩, hsourced⟩ := hr
      by_cases hp : (Path.queue d c x) = .queue d' e'.clipId .jsonTmp
      · rw [hp] at he
        have hcase : fs.get (.queue d' e'.clipId .jsonTmp) = some (.sidecar e) ∨ e' = e := by
          rcases h with hnominal | htorn
          · obtain ⟨-, hput⟩ := hnominal
            rw [hput, FileMap.get_put, if_pos rfl] at he
            exact Or.inr (Blob.sidecar.inj (Option.some.inj he))
          · rcases htorn.2 _ e he with hold | hnew | ⟨src, hcopy⟩
            · exact Or.inl hold
            · exact Or.inr (Blob.sidecar.inj (Req.write.inj hnew).2)
            · cases hcopy
        obtain ⟨rfl, rfl, rfl⟩ := Path.queue.inj hp
        rcases hcase with hold | rfl
        · exact Or.inl ⟨_, _, hx, hold⟩
        · exact Or.inr ⟨rfl, hsourced⟩
      · rw [FileMap.get_put, if_neg hp] at he
        exact Or.inl ⟨d, x, hx, he⟩

/-- The media that a covered request leaves was the clip's before. -/
theorem media_of_covered {b : Blob} (h : Changed fs r u) (hr : Covered client showUuid r K)
    (hb : u.get (.media d c) = some b) : ∃ d', fs.get (.media d' c) = some b := by
  cases h with
  | same => exact ⟨d, hb⟩
  | @moved src dst b' hb' =>
    simp only [FileMap.get_put, FileMap.get_del] at hb
    split_ifs at hb with hdst hsrc
    · obtain rfl := Option.some.inj hb
      rcases hr with ⟨d₁, d₂, c', rfl, rfl⟩ | ⟨d₁, d₂, c', y, hy, rfl, rfl⟩
      · obtain ⟨-, rfl, -⟩ := Path.queue.inj hdst
        exact ⟨d₁, hb'⟩
      · cases hdst
    · exact ⟨d, hb⟩
  | copied b => exact hr.elim
  | removed =>
    rw [FileMap.get_del] at hb
    split_ifs at hb
    exact ⟨d, hb⟩
  | @written p contents b' =>
    cases contents with
    | bytes data => exact hr.elim
    | sidecar e' =>
      obtain ⟨⟨d', rfl⟩, -⟩ := hr
      rw [FileMap.get_put, if_neg (by simp)] at hb
      exact ⟨d, hb⟩

/-- A covered request leaves a copy that is under way alone. -/
theorem copy_of_covered (h : Changed fs r u) (hr : Covered client showUuid r K) :
    u.get (.queue d c .mp4Tmp) = fs.get (.queue d c .mp4Tmp) := by
  cases h with
  | same => rfl
  | moved =>
    rcases hr with ⟨d₁, d₂, c', rfl, rfl⟩ | ⟨d₁, d₂, c', y, hy, rfl, rfl⟩
    · simp [FileMap.get_put, FileMap.get_del]
    · have hne : .mp4Tmp ≠ y := by
        rintro rfl
        exact hy
      simp [FileMap.get_put, FileMap.get_del, hne]
  | copied b => exact hr.elim
  | removed => rw [FileMap.get_del, if_neg (hr d c).symm]
  | @written p contents b =>
    cases contents with
    | bytes data => exact hr.elim
    | sidecar e' =>
      obtain ⟨⟨d', rfl⟩, -⟩ := hr
      rw [FileMap.get_put, if_neg (by simp)]

end Files

/-- A covered request is founded, spares the copies and shows what it says. -/
theorem enforces_covered {guar : Fs × List Deed → Fs × List Deed → Prop}
    (hguar : ∀ s t, Works client showUuid s t → SparesCopies s t → guar s t) :
    Enforces (covered client showUuid) seen (Founded client showUuid) guar Witnessed := by
  intro s r v t h hs hr
  have hgrow := seen_le_of_witnessed h
  have hfounded : Founded client showUuid t := by
    refine hs.step h (fun d c x e hx he => ?_) (fun d c b hb => ?_) ?_
    · -- a sidecar found after the request was there before it, or is what it wrote
      rcases record_of_covered h.1 hr hx he with ⟨d', x', hx', hold⟩ | ⟨hid, hnew⟩
      · obtain ⟨hid, hsourced⟩ := hs.records d' c x' e hx' hold
        exact ⟨hid, hsourced.mono hgrow⟩
      · exact ⟨hid, hnew.mono hgrow⟩
    · obtain ⟨d', hold⟩ := media_of_covered (changed_of_answer h.1) hr hb
      exact (hs.media d' c b hold).mono hgrow
    · -- a request that reaches the network
      cases r with
      | post url file name =>
        obtain ⟨u, c, hurl, rfl, rfl, rfl⟩ := hr
        exact ⟨u, c, hurl, rfl, rfl, rfl, fun b hb => hs.media _ c b hb⟩
      | getUrl url => exact hr
      | _ => exact trivial
  refine ⟨hguar s t ⟨hgrow, fun _ => hfounded⟩
    (fun d c => copy_of_covered (changed_of_answer h.1) hr), hgrow,
    ⟨s.1, mem_seen_of_witnessed h⟩, ?_⟩
  cases r with
  | read p =>
    rcases v with err | b
    · cases p <;> exact trivial
    · cases p with
      | queue d c x =>
        cases b with
        | bytes data => exact trivial
        | sidecar e =>
          intro hx
          have hread : s.1.get (.queue d c x) = some (.sidecar e) := by
            rcases h.1 with hnominal | ⟨⟨⟨err, herr⟩, -⟩, -⟩
            · obtain ⟨-, hv⟩ := hnominal
              cases hget : s.1.get (.queue d c x) with
              | none =>
                rw [hget] at hv
                cases hv
              | some b =>
                rw [hget] at hv
                rw [Except.ok.inj hv]
            · cases herr
          obtain ⟨hid, hsourced⟩ := hs.records d c x e hx hread
          exact ⟨hid, hsourced.mono hgrow⟩
      | _ => exact trivial
  | _ => exact trivial

end Requests

/-! ## The capture -/

section Capture

variable {client : PerchpubClient} {showUuid : Uuid → String} {s t : Fs × List Deed} {c : ClipId}
  {name : String} {fs u : Fs}

theorem rename_answer {src dst : Path} {v : Rep (.rename src dst)}
    (h : Nominal fs (.rename src dst) v u ∨ Torn fs (.rename src dst) v u) :
    u = fs ∨ ∃ b, fs.get src = some b ∧ v = .ok () ∧ u = (fs.del src).put dst b := by
  rcases h with h | h
  · cases hb : fs.get src with
    | none =>
      simp only [Nominal, hb] at h
      exact Or.inl h.2
    | some b =>
      simp only [Nominal, hb] at h
      exact Or.inr ⟨b, rfl, h⟩
  · exact Or.inl h.1.2

/-- A copy that succeeds leaves the source's contents at the target, which is all it changes. -/
theorem copy_answer {src dst : Path} {v : Rep (.copy src dst)}
    (h : Nominal fs (.copy src dst) v u ∨ Torn fs (.copy src dst) v u) :
    (∀ q, q ≠ dst → u.get q = fs.get q) ∧
      (v = .ok () → ∃ b, fs.get src = some b ∧ u.get dst = some b) := by
  rcases h with h | ⟨⟨⟨err, rfl⟩, hput⟩, -⟩
  · cases hb : fs.get src with
    | none =>
      simp only [Nominal, hb] at h
      obtain ⟨rfl, rfl⟩ := h
      exact ⟨fun _ _ => rfl, fun h => by cases h⟩
    | some b =>
      simp only [Nominal, hb] at h
      obtain ⟨rfl, rfl⟩ := h
      exact ⟨fun q hq => by rw [FileMap.get_put, if_neg hq], fun _ =>
        ⟨b, rfl, by rw [FileMap.get_put, if_pos rfl]⟩⟩
  · refine ⟨fun q hq => ?_, fun h => by cases h⟩
    rcases hput with rfl | ⟨b, rfl⟩
    · rfl
    · rw [FileMap.get_put, if_neg hq]

/-- What lies at the place of a copy was brought in under the clip's name. -/
def CopyClean (c : ClipId) (s : Fs × List Deed) : Prop :=
  ∀ b, s.1.get (.queue .pending c .mp4Tmp) = some b → BroughtIn (seen s) c b

theorem CopyClean.of_rely (h : CopyClean c s) (hw : Works client showUuid s t)
    (hspare : SparesCopies s t) : CopyClean c t := by
  intro b hb
  rw [hspare] at hb
  exact (h b hb).mono hw.1

/-- A file that ends up as the clip's footage was brought in under its name. -/
theorem works_rename {src : Path} {v : Rep (.rename src (.media .pending c))}
    (h : Witnessed s (.rename src (.media .pending c)) v t)
    (hsrc : ∀ d c' x, x.IsRecord ∨ x = .mp4 → src ≠ .queue d c' x)
    (hin : v = .ok () → ∀ b, s.1.get src = some b → BroughtIn (seen t) c b) :
    Works client showUuid s t := by
  have hgrow := seen_le_of_witnessed h
  refine ⟨hgrow, fun hs => hs.step h (fun d c' x e hx he => ?_) (fun d c' b hb => ?_) trivial⟩
  · have hold : s.1.get (.queue d c' x) = some (.sidecar e) := by
      rcases rename_answer h.1 with heq | ⟨b, -, -, heq⟩
      · rw [← heq]
        exact he
      · rw [heq, FileMap.get_put, if_neg, FileMap.get_del, if_neg (hsrc _ _ _ (Or.inl hx)).symm] at he
        · exact he
        · rintro ⟨⟩
          exact hx
    obtain ⟨hid, hsourced⟩ := hs.records d c' x e hx hold
    exact ⟨hid, hsourced.mono hgrow⟩
  · rcases rename_answer h.1 with heq | ⟨b', hb', hv, heq⟩
    · rw [heq] at hb
      exact (hs.media d c' b hb).mono hgrow
    · rw [heq, FileMap.get_put] at hb
      split_ifs at hb with hdst
      · obtain ⟨rfl, rfl, -⟩ := Path.queue.inj hdst
        obtain rfl := Option.some.inj hb
        exact hin hv _ hb'
      · rw [FileMap.get_del, if_neg (hsrc _ _ _ (Or.inr rfl)).symm] at hb
        exact (hs.media d c' b hb).mono hgrow

/-- A copy touches no record and no footage. -/
theorem works_copy {v : Rep (.copy (.source name) (.queue .pending c .mp4Tmp))}
    (h : Witnessed s (.copy (.source name) (.queue .pending c .mp4Tmp)) v t) :
    Works client showUuid s t ∧ (v = .ok () → CopyClean c t) := by
  have hgrow := seen_le_of_witnessed h
  obtain ⟨hother, hdone⟩ := copy_answer h.1
  refine ⟨⟨hgrow, fun hs => hs.step h (fun d c' x e hx he => ?_) (fun d c' b hb => ?_) trivial⟩,
    fun hv b hb => ?_⟩
  · rw [hother] at he
    · obtain ⟨hid, hsourced⟩ := hs.records d c' x e hx he
      exact ⟨hid, hsourced.mono hgrow⟩
    · rintro ⟨⟩
      exact hx
  · rw [hother _ (by simp)] at hb
    exact (hs.media d c' b hb).mono hgrow
  · obtain ⟨b', hsrc, hdst⟩ := hdone hv
    rw [hdst] at hb
    obtain rfl := Option.some.inj hb
    subst hv
    exact ⟨s.1, name, hsrc, Or.inr (mem_seen_of_witnessed h)⟩

/-- What the others do while the capture is at work. -/
abbrev Beside (client : PerchpubClient) (showUuid : Uuid → String) (s t : Fs × List Deed) : Prop :=
  Works client showUuid s t ∧ SparesCopies s t

/-- The capture's specification. -/
abbrev Captures (client : PerchpubClient) (showUuid : Uuid → String) {α : Type} (p : Act α)
    (s : Fs × List Deed) : Prop :=
  Upholds Witnessed (Founded client showUuid) (Beside client showUuid) (Works client showUuid)
    (fun _ _ => True) p s

/-- A covered request of the capture. -/
theorem captures_ok {α : Type} {p : Act α}
    (h : Provenance.Ok client showUuid Provenance.Any p (seen s)) : Captures client showUuid p s :=
  h.upholds (enforces_covered fun _ _ hw _ => hw) fun _ _ hr => hr.1.1

theorem captures_placeMedia :
    Captures client showUuid
      (placeMedia (.source name) (.media .pending c) (.queue .pending c .mp4Tmp)) s := by
  refine upholds_request (A := fun _ => True) trivial (fun _ _ _ _ _ _ => trivial)
    fun s₁ v s₂ _ _ h => ⟨works_rename h (by simp) fun hv b hb => ?_, ?_⟩
  · subst hv
    exact ⟨s₁.1, name, hb, Or.inl (mem_seen_of_witnessed h)⟩
  rcases v with err | _
  · refine upholds_request (A := fun _ => True) trivial (fun _ _ _ _ _ _ => trivial)
      fun s₃ v s₄ _ _ h => ⟨(works_copy h).1, ?_⟩
    obtain ⟨-, hclean⟩ : Works client showUuid s₃ s₄ ∧ (v = .ok () → CopyClean c s₄) := works_copy h
    rcases v with err | _
    · exact trivial
    · -- the copy is still what was copied when it is moved into place
      refine upholds_request (A := CopyClean c) (hclean rfl)
        (fun _ _ hr _ _ hc => hc.of_rely hr.1 hr.2) fun s₅ v s₆ hc _ h => ⟨?_, ?_⟩
      · refine works_rename h ?_ fun _ b hb => (hc b hb).mono (seen_le_of_witnessed h)
        rintro d c' x hx ⟨⟩
        rcases hx with hx | hx
        · exact hx
        · cases hx
      rcases v with err | _
      · exact trivial
      · refine captures_ok (Provenance.ask_then ?_ fun _ _ _ => trivial)
        rintro d' c' ⟨⟩
  · exact trivial

theorem captures_enqueueWithId {clipMeta : ClipMeta} :
    Captures client showUuid (enqueueWithId c (.source name) clipMeta) s := by
  have hask : ∀ {α : Type} {r : Req} {f : Rep r → Act α} {s : Fs × List Deed},
      Covered client showUuid r (seen s) → (∀ v t, Captures client showUuid (f v) t) →
      Captures client showUuid (Prog.request r >>= f) s := by
    intro α r f s hr hf
    have hone : Provenance.Ok client showUuid Provenance.Any
        (Prog.request r : Act (Rep r)) (seen s) := ⟨hr, fun _ _ _ _ => trivial⟩
    exact (captures_ok hone).bind fun v t _ => hf v t
  refine hask trivial fun v s₁ => ?_
  rcases v with err | len
  · exact trivial
  · refine captures_placeMedia.bind fun r s₂ _ => ?_
    rcases r with err | _
    · exact trivial
    · refine hask trivial fun at_ s₃ => ?_
      refine captures_ok ((Provenance.ok_writeSidecarAtomic
        (e := .new c clipMeta.capturedAt at_ len) .new).bind fun r K _ _ => ?_)
      rcases r with err | _
      · refine Provenance.ask_then ?_ fun _ _ _ => trivial
        rintro d' c' ⟨⟩
      · exact trivial

theorem captures_submit {profile : Profile} {policy : QueuePolicy} {clipMeta : ClipMeta} :
    Captures client showUuid (submit profile policy c (.source name) clipMeta) s := by
  have hlen : Provenance.Ok client showUuid Provenance.Any (metadata (.source name)) (seen s) :=
    ⟨trivial, fun _ _ _ _ => trivial⟩
  refine (captures_ok hlen).bind fun len s₁ _ => ?_
  refine (captures_ok Provenance.ok_applyPolicy).bind fun outcome s₂ _ => ?_
  cases outcome.result with
  | error err => exact trivial
  | ok _ =>
    refine captures_enqueueWithId.bind fun r s₃ _ => ?_
    rcases r with err | entry <;> exact trivial

end Capture

/-! ## All tasks -/

namespace Task

variable {cfg : Config} {fs₀ : Fs} {tr : List (Option (Move Task Rep) × Tasks)} {b : Tasks}

/-- What each task assumes of the others. -/
def rely (cfg : Config) : Task → Fs × List Deed → Fs × List Deed → Prop
  | .capture => Beside cfg.client cfg.showUuid
  | _ => Works cfg.client cfg.showUuid

/-- What each task does. -/
def guar (cfg : Config) : Task → Fs × List Deed → Fs × List Deed → Prop
  | .capture => Works cfg.client cfg.showUuid
  | _ => Beside cfg.client cfg.showUuid

/-- The specification of a task. -/
abbrev Meets (cfg : Config) (i : Task) {α : Type} (p : Act α) (s : Fs × List Deed) : Prop :=
  Upholds Witnessed (Founded cfg.client cfg.showUuid) (rely cfg i) (guar cfg i) (fun _ _ => True) p s

theorem meets_forget {i : Task} {α : Type} {p : Act α} {s : Fs × List Deed} (h : Meets cfg i p s) :
    Meets cfg i (forget p) s := h.bind fun _ _ _ => trivial

theorem meets_ok {i : Task} (hi : i ≠ .capture) {α : Type} {p : Act α} {s : Fs × List Deed}
    (h : Provenance.Ok cfg.client cfg.showUuid Provenance.Any p (seen s)) : Meets cfg i p s := by
  refine h.upholds (enforces_covered fun _ _ hw hspare => ?_) fun _ _ hr => ?_
  · cases i with
    | capture => exact absurd rfl hi
    | _ => exact ⟨hw, hspare⟩
  · cases i with
    | capture => exact absurd rfl hi
    | _ => exact hr.1

/-- The camera writes outside the queue. -/
theorem meets_camera {name : String} {m : Blob} {s : Fs × List Deed} :
    Meets cfg .camera (write (.source name) m) s := by
  have hrequest : Within (· = .write (.source name) m) (write (.source name) m) :=
    within_request rfl
  refine upholds_of_within hrequest (fun s r v t hr _ h => ?_) s
  subst hr
  have hqueue : ∀ d c x, t.1.get (.queue d c x) = s.1.get (.queue d c x) := by
    intro d c x
    obtain ⟨h, -⟩ := h
    generalize t.1 = u at h ⊢
    cases changed_of_answer h with
    | same => rfl
    | written m' => rw [FileMap.get_put, if_neg (by simp)]
  have hgrow := seen_le_of_witnessed h
  refine ⟨⟨hgrow, fun hs => hs.step h (fun d c x e hx he => ?_) (fun d c m' hm => ?_) trivial⟩,
    fun d c => hqueue d c _⟩
  · rw [hqueue] at he
    obtain ⟨hid, hsourced⟩ := hs.records d c x e hx he
    exact ⟨hid, hsourced.mono hgrow⟩
  · rw [hqueue] at hm
    exact (hs.media d c m' hm).mono hgrow

theorem meets_of_launches {i : Task} {p : Act Unit} {s : Fs × List Deed}
    (h : Launches cfg i p s) : Meets cfg i p s := by
  cases i with
  | boot =>
    obtain rfl := h
    exact meets_forget (meets_ok (by simp) Provenance.ok_reconcileInflight)
  | camera =>
    obtain ⟨name, m, rfl⟩ := h
    exact meets_forget meets_camera
  | capture =>
    obtain ⟨policy, c, name, clipMeta, rfl⟩ := h
    exact meets_forget captures_submit
  | delivery =>
    obtain rfl := h
    exact meets_forget (meets_ok (by simp) Provenance.ok_tryOnce)
  | classify =>
    rcases h with ⟨known, rfl⟩ | ⟨known, rfl⟩
    · exact meets_forget (meets_ok (by simp) Provenance.ok_pollRound)
    · exact meets_forget (meets_ok (by simp) Provenance.ok_pruneRound)

/-- The specifications of the tasks hold side by side. -/
theorem agreed (cfg : Config) :
    Interleaving.Agreed (fun _ => Witnessed) (Launches cfg) (Founded cfg.client cfg.showUuid)
      (rely cfg) (guar cfg) fun _ _ _ => True where
  keeps i s t h := by
    cases i with
    | capture => exact h.2
    | _ => exact h.1.2
  compatible i j s t hij h _ _ := by
    cases i with
    | capture =>
      cases j with
      | capture => exact absurd rfl hij
      | _ => exact h
    | _ =>
      cases j with
      | capture => exact h
      | _ => exact h.1
  stable _ _ _ _ _ _ _ h := h
  launched _ _ _ _ hp _ _ := meets_of_launches hp

/-- Every state a station comes to is founded. -/
theorem founded (h₀ : ∀ d c x, fs₀.get (.queue d c x) = none)
    (h : Exec (Step cfg) (atRest fs₀ []) tr b) : Founded cfg.client cfg.showUuid b.state := by
  have hstart : Founded cfg.client cfg.showUuid (fs₀, []) :=
    ⟨fun d c x e _ he => by simp [h₀] at he, fun d c m hm => by simp [h₀] at hm,
      fun before deed after heq => by simp at heq⟩
  have hsound : Interleaving.Sound (fun _ => Witnessed) (Founded cfg.client cfg.showUuid)
      (rely cfg) (guar cfg) (fun _ _ _ => True) (atRest fs₀ []) := ⟨hstart, fun _ => trivial⟩
  exact ((agreed cfg).sound_life (fun _ _ _ => trivial) h hsound).invariant

end Task

namespace Task

variable {cfg : Config} {fs t : Fs} {deeds : List Deed}

/-- A task that runs its program alone, without faults. -/
theorem exec_alone {i : Task} {α : Type} {q : Act α} {a : α}
    (hl : Launches cfg i (forget q) (fs, deeds)) (h : Runs Nominal q fs a t) :
    ∃ tr deeds', Exec (Step cfg) (atRest fs deeds) tr (atRest t deeds') := by
  have hforget : Runs Nominal (forget q) fs () t :=
    (runs_bind _ _ _ _ _).mpr ⟨a, t, h, rfl, rfl⟩
  obtain ⟨deeds', hrun⟩ : ∃ deeds', Runs Witnessed (forget q) (fs, deeds) () (t, deeds') :=
    exists_recorded Deed.mk (fun _ _ _ _ _ hv => ⟨Or.inl hv, rfl⟩) hforget deeds
  have hexec : ∃ tr, Exec (Step cfg) (atRest fs deeds) tr (atRest t deeds') :=
    Interleaving.exec_alone hl hrun
  obtain ⟨tr, hexec⟩ := hexec
  exact ⟨tr, deeds', hexec⟩

end Task

section Results

variable {cfg : Config} {fs₀ : Fs} {tr : List (Option (Move Task Rep) × Task.Tasks)} {b : Task.Tasks}

/-- In every state of every run, a record names its own clip, and says of the upload and the
classification only what perchpub has answered.  If it says that the clip was delivered, then perchpub
has answered an upload with a 2xx, and what was sent is footage that an enqueue had brought in under
the clip's name. -/
theorem records_say_what_happened (h₀ : ∀ d c x, fs₀.get (.queue d c x) = none)
    (h : Exec (Task.Step cfg) (Task.atRest fs₀ []) tr b) {d : Dir} {c : ClipId} {x : Ext}
    {e : ClipQueueEntry} (hx : x.IsRecord) (he : b.state.1.get (.queue d c x) = some (.sidecar e)) :
    e.clipId = c ∧ Sourced cfg.client cfg.showUuid (onRecord b.state.2) e ∧
      (e.outcome = some .delivered → ∃ before after fs url response,
        b.state.2 = before ++ ⟨fs, .post url (.media .inflight c) (c ++ Ext.mp4.suffix),
          .ok response⟩ :: after ∧ isSuccess response.status = true ∧
        ∀ m, fs.get (.media .inflight c) = some m → BroughtIn (onRecord before) c m) := by
  have hfounded := Task.founded h₀ h
  obtain ⟨rfl, hsourced⟩ := hfounded.records d c x e hx he
  refine ⟨rfl, hsourced, fun hout => ?_⟩
  obtain ⟨response, hs, fs, url, -, hmem⟩ := hsourced.accepted hout
  obtain ⟨before, after, heq⟩ := List.append_of_mem hmem
  obtain ⟨u, c', -, -, hfile, -, htaken⟩ := hfounded.requests before _ after heq
  obtain ⟨-, rfl, -⟩ := Path.queue.inj hfile
  exact ⟨before, after, fs, url.text, response, heq, hs, htaken⟩

theorem allowed_authority {client : PerchpubClient} {path : String} {u : Url}
    (h : client.allowed path = .ok u) : u.authority = client.baseUrl.authority := by
  unfold PerchpubClient.allowed at h
  cases hparse : client.endpoint path with
  | error err => simp [hparse] at h
  | ok url =>
    simp only [hparse, PerchpubClient.checkAuthority] at h
    by_cases hauth : url.authority = client.baseUrl.authority
    · simp only [hauth, if_true, Except.ok.injEq] at h
      exact h ▸ hauth
    · simp [hauth] at h

/-! ### A first clip, from the camera to its delivery -/

namespace Task

/-- The answer to the first upload. -/
def firstTask : ClassifyTaskPublic := ⟨0, .queued⟩

/-- The record of the first clip once it is delivered. -/
def firstDelivered : ClipQueueEntry :=
  deliveredRecord (startAttempt Station.firstEntry Station.epoch) firstTask Station.epoch

theorem get_firstDelivered : (movedDelivered Station.uploading.fs firstDelivered).get
    (.queue .delivered "c1" .json) = some (.sidecar firstDelivered) := by
  rw [movedDelivered, FileMap.get_put]
  exact if_pos rfl

theorem runs_firstSubmit :
    Runs Nominal (submit .release ⟨10, 100, .refuseNew⟩ "c1" (.source "in.mp4") ⟨Station.epoch⟩)
      Station.captured.fs ([], .ok Station.firstEntry) Station.queued.fs := by
  have hempty : ∀ d, Station.captured.fs.Lists (fun p => p.inDir d) [] := by
    refine fun d => ⟨List.nodup_nil, fun p => ⟨fun hp => absurd hp List.not_mem_nil, ?_⟩⟩
    rintro ⟨hin, hsome⟩
    cases p with
    | queue d' c x => simp [Station.captured, Station.blank, FileMap.get_put] at hsome
    | _ => simp [Path.inDir] at hin
  have hnone : ∀ d, Runs Nominal (readSidecars d) Station.captured.fs (.ok []) Station.captured.fs :=
    fun d => (runs_bind _ _ _ _ _).mpr ⟨.ok [], _, ⟨.ok [], _, ⟨rfl, [], hempty d, rfl⟩, rfl, rfl⟩,
      rfl, rfl⟩
  have hcensus : Runs Nominal takeCensus Station.captured.fs (.ok (censusOf [] [] []))
      Station.captured.fs :=
    (runs_bind _ _ _ _ _).mpr ⟨_, _, hnone .inflight, (runs_bind _ _ _ _ _).mpr
      ⟨_, _, hnone .delivered, (runs_bind _ _ _ _ _).mpr ⟨_, _, hnone .pending, rfl, rfl⟩⟩⟩
  have hpolicy : Runs Nominal (applyPolicy .release ⟨10, 100, .refuseNew⟩ 1) Station.captured.fs
      ⟨[], .ok ()⟩ Station.captured.fs :=
    (runs_bind _ _ _ _ _).mpr ⟨_, _, hcensus, rfl, rfl⟩
  have hmedia : Station.captured.fs.get (.source "in.mp4") = some Station.footage := by
    simp [Station.captured, FileMap.get_put]
  have henqueue : Runs Nominal (enqueueWithId "c1" (.source "in.mp4") ⟨Station.epoch⟩)
      Station.captured.fs (.ok Station.firstEntry) Station.queued.fs :=
    runs_enqueueWithId.mpr (Or.inr ⟨Station.footage, 1, Station.epoch, hmedia, rfl, rfl, rfl⟩)
  have hlen : Runs Nominal (metadata (.source "in.mp4")) Station.captured.fs (.ok 1)
      Station.captured.fs := by
    rw [runs_metadata]
    refine ⟨rfl, ?_⟩
    rw [hmedia]
    exact ⟨1, rfl, rfl⟩
  exact (runs_bind _ _ _ _ _).mpr ⟨_, _, hlen, (runs_bind _ _ _ _ _).mpr ⟨_, _, hpolicy,
    (runs_bind _ _ _ _ _).mpr ⟨_, _, henqueue, rfl, rfl⟩⟩⟩

theorem runs_firstAttempt :
    Runs Nominal (tryOnce Config.plain.client Config.plain.schedule) Station.queued.fs (.ok true)
      (movedDelivered Station.uploading.fs firstDelivered) := by
  obtain ⟨e, hhead⟩ : ∃ e, Runs Nominal tryOnceHead Station.queued.fs (.ok (.upload e))
      Station.uploading.fs ∧ e = startAttempt Station.firstEntry Station.epoch := by
    have hstep : Perchstation.Step Config.plain Station.queued _ Station.uploading :=
      Station.step_uploading
    cases hstep with
    | start _ hr => exact ⟨_, hr, rfl⟩
  obtain ⟨hhead, rfl⟩ := hhead
  have hurl : Config.plain.client.allowed "/api/v1/upload/" = .ok
      ⟨PerchpubClient.trimEndSlashes "https://perchpub/" ++ "/api/v1/upload/", "perchpub"⟩ := rfl
  have hupload : Runs Nominal (Config.plain.client.uploadClip (.media .inflight "c1") "c1")
      Station.uploading.fs (.ok firstTask) Station.uploading.fs := by
    rw [runs_uploadClip_iff, hurl]
    refine ⟨rfl, Or.inr ⟨?_, Or.inr ⟨wholeAnswer, Station.epoch, rfl⟩⟩⟩
    rw [show Station.uploading.fs = movedInflight Station.queued.fs Station.footage
      (startAttempt Station.firstEntry Station.epoch) from rfl]
    exact Option.isSome_iff_exists.mpr ⟨_, get_movedInflight_media⟩
  have hfinish : Runs Nominal (tryOnceFinish Config.plain.schedule
      (startAttempt Station.firstEntry Station.epoch) (.ok firstTask)) Station.uploading.fs (.ok ())
      (movedDelivered Station.uploading.fs firstDelivered) :=
    (runs_bind _ _ _ _ _).mpr
      ⟨Station.epoch, _, runs_now.mpr rfl, runs_transitionDelivered.mpr ⟨rfl, rfl⟩⟩
  exact (runs_bind _ _ _ _ _).mpr ⟨_, _, hhead, (runs_bind _ _ _ _ _).mpr ⟨_, _, hupload,
    (runs_bind _ _ _ _ _).mpr ⟨_, _, hfinish, rfl, rfl⟩⟩⟩

/-- The camera records a clip, the capture submits it, and it is delivered. -/
theorem exec_first : ∃ tr deeds, Exec (Step Config.plain) (atRest .empty []) tr
    (atRest (movedDelivered Station.uploading.fs firstDelivered) deeds) := by
  have hcamera : Runs Nominal (write (.source "in.mp4") Station.footage) .empty (.ok ())
      Station.captured.fs := runs_write.mpr ⟨rfl, rfl⟩
  have hrecord : Launches Config.plain .camera
      (forget (write (.source "in.mp4") Station.footage)) (.empty, []) := ⟨_, _, rfl⟩
  obtain ⟨tr₁, deeds₁, h1⟩ := exec_alone hrecord hcamera
  have hsubmit : Launches Config.plain .capture
      (forget (submit .release ⟨10, 100, .refuseNew⟩ "c1" (.source "in.mp4") ⟨Station.epoch⟩))
      (Station.captured.fs, deeds₁) := ⟨_, _, _, _, rfl⟩
  obtain ⟨tr₂, deeds₂, h2⟩ := exec_alone hsubmit runs_firstSubmit
  have hattempt : Launches Config.plain .delivery
      (forget (tryOnce Config.plain.client Config.plain.schedule)) (Station.queued.fs, deeds₂) := rfl
  obtain ⟨tr₃, deeds₃, h3⟩ := exec_alone hattempt runs_firstAttempt
  exact ⟨_, deeds₃, (h1.append h2).append h3⟩

end Task

/-- The first clip is recorded as delivered, and was. -/
theorem records_say_what_happened_first : ∃ deeds before after fs url response,
    deeds = before ++ (⟨fs, .post url (.media .inflight "c1") ("c1" ++ Ext.mp4.suffix),
      .ok response⟩ : Deed) :: after ∧ isSuccess response.status = true := by
  obtain ⟨tr, deeds, h⟩ := Task.exec_first
  obtain ⟨-, -, hout⟩ :=
    records_say_what_happened (by simp) h (x := .json) trivial Task.get_firstDelivered
  obtain ⟨before, after, fs, url, response, heq, hs, -⟩ := hout rfl
  exact ⟨deeds, before, after, fs, url, response, heq, hs⟩

/-- In every run, whatever is sent goes to a URL that the client's allowlist has let pass, at the
configured authority; and an upload is the file of one clip in `inflight/`, under that clip's name, and
sends footage brought in under that name before. -/
theorem requests_go_back (h₀ : ∀ d c x, fs₀.get (.queue d c x) = none)
    (h : Exec (Task.Step cfg) (Task.atRest fs₀ []) tr b) {before after : List Deed} {deed : Deed}
    (heq : b.state.2 = before ++ deed :: after) :
    (∀ url, (deed.req = .getUrl url ∨ ∃ file name, deed.req = .post url file name) →
      ∃ path u, cfg.client.allowed path = .ok u ∧ u.text = url ∧
        u.authority = cfg.client.baseUrl.authority) ∧
    ∀ url file name, deed.req = .post url file name → ∃ c, file = .media .inflight c ∧
      name = c ++ Ext.mp4.suffix ∧
      ∀ m, deed.fs.get file = some m → BroughtIn (onRecord before) c m := by
  have hjust := (Task.founded h₀ h).requests before deed after heq
  obtain ⟨fs, r, v⟩ := deed
  refine ⟨fun url hreq => ?_, fun url file name hreq => ?_⟩
  · rcases hreq with rfl | ⟨file, name, rfl⟩
    · obtain ⟨path, u, hurl, rfl⟩ := hjust
      exact ⟨path, u, hurl, rfl, allowed_authority hurl⟩
    · obtain ⟨u, c, hurl, rfl, -⟩ := hjust
      exact ⟨_, u, hurl, rfl, allowed_authority hurl⟩
  · obtain rfl : r = .post url file name := hreq
    obtain ⟨u, c, -, -, hfile, hname, htaken⟩ := hjust
    exact ⟨c, hfile, hname, htaken⟩

/-- The first upload goes to perchpub, and sends what was brought in as `c1`. -/
theorem requests_go_back_first : ∃ deeds before after fs url response,
    deeds = before ++ (⟨fs, .post url (.media .inflight "c1") ("c1" ++ Ext.mp4.suffix),
      response⟩ : Deed) :: after ∧
    (∃ path u, Config.plain.client.allowed path = .ok u ∧ u.text = url ∧
      u.authority = "perchpub") ∧
    ∀ m, fs.get (.media .inflight "c1") = some m → BroughtIn (onRecord before) "c1" m := by
  obtain ⟨tr, deeds, h⟩ := Task.exec_first
  have hfounded := Task.founded (by simp) h
  obtain ⟨response, -, fs, url, -, hmem⟩ :=
    (hfounded.records .delivered "c1" .json _ trivial Task.get_firstDelivered).2.accepted rfl
  obtain ⟨before, after, heq⟩ := List.append_of_mem hmem
  obtain ⟨hto, hfrom⟩ := requests_go_back (by simp) h heq
  obtain ⟨c, hc, -, hsent⟩ := hfrom _ _ _ rfl
  obtain ⟨-, rfl, -⟩ := Path.queue.inj hc
  exact ⟨deeds, before, after, fs, url.text, .ok response, heq, hto url.text (Or.inr ⟨_, _, rfl⟩),
    hsent⟩

end Results

end Perchstation
