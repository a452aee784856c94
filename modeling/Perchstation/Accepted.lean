import Perchstation.Station

/-!
# Accepted — what becomes of an upload perchpub has taken

A 2xx says that the server has the clip.  If its body arrives whole and within the client's cap, the
clip is recorded as delivered and never sent again; if not, the response counts as a failed upload.
-/

namespace Perchstation

open Resumption QueueStore

variable {cfg : Config} {st st' : Station} {e : ClipQueueEntry} {t : Fs}

/-- The attempt on `e` runs to its end with the result, leaves the clip in `delivered/` as
delivered, and no continuation puts it back into `pending/` or uploads it again. -/
def NeverAgain (cfg : Config) (st : Station) (e : ClipQueueEntry)
    (result : Except ClientError ClassifyTaskPublic) : Prop :=
  (∃ readings st₁, Step cfg st (.finished e result readings) st₁) ∧
    ∀ readings st₁, Step cfg st (.finished e result readings) st₁ →
      (∃ d : ClosedEntry e.clipId, At st₁.fs e.clipId (.delivered d) ∧
        d.1.outcome = some .delivered) ∧
      ∀ tr st', Exec (Step cfg) st₁ tr st' →
        (∀ x, Ext.IsMain x → st'.fs.get (.queue .pending e.clipId x) = none) ∧
          ∀ e', st'.awaiting = some e' → e'.clipId ≠ e.clipId

/-- A clip in `delivered/` is not sent again. -/
theorem Inv.never_again {c : ClipId} {d : ClosedEntry c} {tr : List (Event × Station)}
    (hi : Inv st) (hd : At st.fs c (.delivered d)) (h : Exec (Step cfg) st tr st') :
    (∀ x, Ext.IsMain x → st'.fs.get (.queue .pending c x) = none) ∧
      ∀ e', st'.awaiting = some e' → e'.clipId ≠ c := by
  obtain ⟨q, hq, hmoves, -⟩ := hi.moved_exec h (hi.mem_used hd (by simp)) hd
  have hcase := hmoves.of_delivered
  refine ⟨fun x hx => ?_, ?_⟩
  · rw [hq .pending x (by simp) hx]
    rcases hcase with rfl | ⟨d', rfl, -⟩
    · rfl
    · exact Phase.slot_of_ne (by simp) _ _ _
  · rintro e' he' rfl
    obtain ⟨m, ho, hat⟩ := (hi.exec h).awaiting e' he'
    obtain rfl := hq.unique hat
    rcases hcase with h | ⟨d', h, -⟩ <;> cases h

/-- An answer that shows the clip accepted settles it. -/
theorem Inv.neverAgain_of_accepted {result : Except ClientError ClassifyTaskPublic} (hi : Inv st)
    (haw : st.awaiting = some e)
    (hr : (∃ task, result = .ok task) ∨
      ∃ url message, result = .error (.undecodableSuccess url message)) :
    NeverAgain cfg st e result := by
  refine ⟨?_, fun readings st₁ hs => ?_⟩
  · have hfin : ∃ t, FinishRun cfg.schedule st.fs e Station.epoch result t := by
      rcases hr with ⟨task, rfl⟩ | ⟨url, message, rfl⟩
      · exact ⟨_, .accepted⟩
      · exact ⟨_, .undecodable⟩
    obtain ⟨t, hfin⟩ := hfin
    obtain ⟨rest, hs⟩ := Step.exists_finish haw hfin
    exact ⟨_, _, hs⟩
  · obtain ⟨-, at_, rest, -, hfin⟩ := hs.finish_elim
    have hdel : ∃ d : ClosedEntry e.clipId, At st₁.fs e.clipId (.delivered d) ∧
        d.1.outcome = some .delivered := by
      generalize st₁.fs = u at hfin
      cases hfin with
      | accepted =>
        obtain ⟨d, hd, hde⟩ := hi.settled haw deliveredRecord_clipId (by simp)
        exact ⟨d, hd, hde ▸ deliveredRecord_outcome⟩
      | undecodable =>
        obtain ⟨d, hd, hde⟩ := hi.settled haw undecodableRecord_clipId (by simp)
        exact ⟨d, hd, hde ▸ undecodableRecord_outcome⟩
      | retried htrans =>
        rcases hr with ⟨_, h⟩ | ⟨_, _, h⟩ <;> cases h
        cases htrans
      | exhausted htrans =>
        rcases hr with ⟨_, h⟩ | ⟨_, _, h⟩ <;> cases h
        cases htrans
      | terminal _ hne =>
        rcases hr with ⟨_, h⟩ | ⟨_, _, h⟩ <;> cases h
        exact absurd rfl (hne _ _)
    obtain ⟨d, hd, hout⟩ := hdel
    exact ⟨⟨d, hd, hout⟩, fun tr st' h => (hi.step hs).never_again hd h⟩

/-- An answer whose body could not be read is a failed upload: the clip is sent again, or given up. -/
theorem Inv.not_neverAgain {err : ClientError} (hi : Inv st) (hb : err.IsBodyFailure) :
    ¬ NeverAgain cfg st e (.error err) := by
  rintro ⟨⟨readings, st₁, hs⟩, h⟩
  obtain ⟨⟨d, hd, hout⟩, -⟩ := h readings st₁ hs
  obtain ⟨haw, at_, rest, -, hfin⟩ := hs.finish_elim
  obtain ⟨m, ho, hat⟩ := hi.awaiting e haw
  generalize st₁.fs = u at hfin hd
  cases hfin with
  | undecodable => exact hb
  | @retried _ next _ _ =>
    have hback := hat.movedBack
      (e := ⟨retryRecord e next (errorKind err) err.status err.display, rfl, ho⟩)
    cases hd.unique hback
  | exhausted =>
    obtain ⟨d', hd', hde⟩ := hi.settled haw undeliverableRecord_clipId (by simp)
    obtain rfl := Phase.delivered.inj (hd.unique hd')
    rw [hde, undeliverableRecord_outcome] at hout
    cases hout
  | terminal ht =>
    cases err with
    | network => cases ht
    | decode => cases ht
    | _ => exact hb

/-- A clip whose upload perchpub has answered with a 2xx is delivered and never sent again exactly
if the body arrives whole, and it and its advertised length are within the cap. -/
theorem accepted_upload {st₀ : Station} {tr : List (Event × Station)} {response : HttpResponse}
    {at_ : DateTime} {url : String} (h₀ : st₀.Initial) (h : Exec (Step cfg) st₀ tr st)
    (haw : st.awaiting = some e) (hs : isSuccess response.status = true) :
    NeverAgain cfg st e (readAndClassify response at_ url) ↔ response.Readable := by
  have hi : Inv st := h₀.inv.exec h
  constructor
  · intro hnever
    by_contra hr
    obtain ⟨err, herr, hb⟩ := readAndClassify_of_not_readable hr
    rw [herr] at hnever
    exact hi.not_neverAgain hb hnever
  · intro hr
    refine hi.neverAgain_of_accepted haw ?_
    exact (readAndClassify_of_readable hs hr).imp_right fun ⟨message, hm⟩ => ⟨url, message, hm⟩

/-- A 2xx whose body arrives whole. -/
def wholeAnswer : HttpResponse := ⟨200, .absent, none, [64], none, "", .ok ⟨0, .queued⟩⟩

/-- The same answer, announced as 2 MiB long. -/
def longAnswer : HttpResponse := { wholeAnswer with contentLength := some 2097152 }

theorem accepted_upload_whole :
    NeverAgain Config.plain Station.uploading (startAttempt Station.firstEntry Station.epoch)
      (readAndClassify wholeAnswer Station.epoch "https://perchpub/api/v1/upload/") := by
  have h : Exec (Step Config.plain) Station.blank Station.firstTrace Station.uploading :=
    Station.exec_uploading
  refine (accepted_upload Station.blank_initial h rfl (by decide)).mpr ⟨?_, rfl, by decide⟩
  rintro len ⟨⟩

/-- The server has taken the clip, and the station sends it again. -/
theorem accepted_upload_long :
    isSuccess longAnswer.status = true ∧
      ¬ NeverAgain Config.plain Station.uploading (startAttempt Station.firstEntry Station.epoch)
        (readAndClassify longAnswer Station.epoch "https://perchpub/api/v1/upload/") := by
  have hlong : ¬ longAnswer.Readable := fun hr => absurd (hr.1 2097152 rfl) (by decide)
  obtain ⟨err, herr, hb⟩ := readAndClassify_of_not_readable hlong
  exact ⟨by decide, herr ▸ Station.uploading_inv.not_neverAgain hb⟩

end Perchstation
