import Perchstation.Delivery.PollRules
import Perchstation.Lib.Journal

/-!
# Skip set — a scan that leaves known clips unread

The scan passes over the clips of its skip set.  As long as none of them has a pollable sidecar on
disk, what the scan returns, the clock readings it takes and the changes it asks for do not depend
on the set.
-/

namespace Perchstation

open Resumption QueueStore ClassifyPoller

/-- The request changes a file. -/
def Req.changes : Req → Bool
  | .rename _ _ | .copy _ _ | .removeFile _ | .write _ _ => true
  | _ => false

/-- The answers without faults, with the clock readings to come and the changes asked for. -/
abbrev Watched : Env Req Rep ((Fs × List DateTime) × List Req) := journaled Req.changes Clocked

/-- The requests that replace the sidecar of `e` in `delivered/`. -/
def rewriteRequests (e : ClipQueueEntry) : List Req :=
  [.write (.queue .delivered e.clipId .jsonTmp) (.sidecar e),
    .rename (.queue .delivered e.clipId .jsonTmp) (.queue .delivered e.clipId .json)]

/-- No clip of the set has a pollable sidecar in `delivered/`. -/
def SkipsSettled (fs : Fs) (seen : Finset ClipId) : Prop :=
  ∀ c ∈ seen, ∀ e, fs.get (.queue .delivered c .json) = some (.sidecar e) → isPollable e = false

/-- Every sidecar of `delivered/` decodes. -/
def AllDecode (fs : Fs) : Prop := ∀ c, ¬ Undecodable fs (.queue .delivered c .json)

/-- `e` once it has been given up on. -/
def lostRecord (e : ClipQueueEntry) (at_ : DateTime) : ClipQueueEntry :=
  { e with classifyLostAt := some at_ }

/-- `e` with the status the server has told. -/
def polledRecord (e : ClipQueueEntry) (status : ClassifyTaskStatus) : ClipQueueEntry :=
  { e with lastClassifyStatus := some status }

variable {fs t : Fs} {readings readings' : List DateTime} {log log' : List Req} {e : ClipQueueEntry}
  {seen seen' : Finset ClipId} {s u : (Fs × List DateTime) × List Req}

@[simp] theorem lostRecord_clipId {at_ : DateTime} : (lostRecord e at_).clipId = e.clipId := rfl

@[simp] theorem polledRecord_clipId {status : ClassifyTaskStatus} :
    (polledRecord e status).clipId = e.clipId := rfl

@[simp] theorem isPollable_lostRecord {at_ : DateTime} : isPollable (lostRecord e at_) = false := by
  simp [isPollable, lostRecord]

theorem SkipsSettled.insert (h : SkipsSettled fs seen)
    (he : fs.get (.queue .delivered e.clipId .json) = some (.sidecar e))
    (hp : isPollable e = false) : SkipsSettled fs (insert e.clipId seen) := by
  intro c hc e' he'
  rcases Finset.mem_insert.mp hc with rfl | hc
  · rw [he] at he'
    rw [← Blob.sidecar.inj (Option.some.inj he'), hp]
  · exact h c hc e' he'

/-- A rewrite that settles its clip. -/
theorem SkipsSettled.rewrite (h : SkipsSettled fs seen) (hp : isPollable e = false) :
    SkipsSettled (replaceSidecar fs .delivered e.clipId e) (Insert.insert e.clipId seen) := by
  refine SkipsSettled.insert (fun c hc e' he' => ?_) get_replaceSidecar_self hp
  rw [get_replaceSidecar] at he'
  split_ifs at he' with h1 h2
  · rw [← Blob.sidecar.inj (Option.some.inj he'), hp]
  · exact h c hc e' he'

theorem AllDecode.rewrite (h : AllDecode fs) :
    AllDecode (replaceSidecar fs .delivered e.clipId e) := by
  rintro c ⟨data, hd⟩
  rw [get_replaceSidecar] at hd
  split_ifs at hd
  · cases hd
  · exact h c ⟨data, hd⟩

/-! ## Rules -/

/-- Every run without faults is one for some clock readings and changes asked for. -/
theorem exists_watched {α : Type} {p : Act α} {a : α} (h : Runs Nominal p fs a t) :
    ∃ readings asked, Runs Watched p ((fs, readings), []) a ((t, []), asked) := by
  obtain ⟨readings, hr⟩ := exists_clocked [] h
  obtain ⟨asked, ha⟩ := exists_journaled Req.changes hr
  exact ⟨_, asked, ha⟩

section Rules

variable {p q : Path} {b : Blob}

theorem runs_read_watched {v : Except IoError Blob} :
    Runs Watched (read p) ((fs, readings), log) v u ↔
      Nominal fs (.read p) v fs ∧ u = ((fs, readings), log) := by
  obtain ⟨⟨t, readings'⟩, log'⟩ := u
  have hlog : [Req.read p].filter Req.changes = [] := rfl
  simp only [read, ask, runs_request, journaled, Clocked, Nominal, hlog, List.append_nil,
    Prod.mk.injEq]
  tauto

theorem runs_write_watched {v : Except IoError Unit} :
    Runs Watched (write p b) ((fs, readings), log) v u ↔
      v = .ok () ∧ u = ((fs.put p b, readings), log ++ [.write p b]) := by
  obtain ⟨⟨t, readings'⟩, log'⟩ := u
  have hlog : [Req.write p b].filter Req.changes = [.write p b] := rfl
  simp only [write, ask, runs_request, journaled, Clocked, Nominal, hlog, Prod.mk.injEq]
  tauto

theorem runs_rename_watched {v : Except IoError Unit} :
    Runs Watched (rename p q) ((fs, readings), log) v u ↔
      Nominal fs (.rename p q) v u.1.1 ∧ u.1.2 = readings ∧ u.2 = log ++ [.rename p q] := by
  obtain ⟨⟨t, readings'⟩, log'⟩ := u
  have hlog : [Req.rename p q].filter Req.changes = [.rename p q] := rfl
  simp only [rename, ask, runs_request, journaled, Clocked, hlog]
  tauto

theorem runs_now_watched {v : DateTime} :
    Runs Watched now ((fs, readings), log) v u ↔ readings = v :: u.1.2 ∧ u = ((fs, u.1.2), log) := by
  obtain ⟨⟨t, readings'⟩, log'⟩ := u
  have hlog : [Req.now].filter Req.changes = [] := rfl
  simp only [now, ask, runs_request, journaled, Clocked, hlog, List.append_nil, Prod.mk.injEq]
  tauto

theorem runs_readSidecar_watched {v : Except QueueError ClipQueueEntry} :
    Runs Watched (readSidecar p) s v u ↔ v = sidecarAt s.1.1 p ∧ u = s := by
  obtain ⟨⟨fs, readings⟩, log⟩ := s
  simp only [readSidecar, runs_bind, runs_read_watched, Nominal, sidecarAt]
  rcases fs.get p with _ | _ | _ <;> simp [Blob.decode]

theorem runs_updateDeliveredSidecar_watched {v : Except QueueError Unit} :
    Runs Watched (updateDeliveredSidecar e) ((fs, readings), log) v u ↔
      v = .ok () ∧ u = ((replaceSidecar fs .delivered e.clipId e, readings),
        log ++ rewriteRequests e) := by
  obtain ⟨⟨t, readings'⟩, log'⟩ := u
  simp only [updateDeliveredSidecar, writeSidecarAtomic, Path.withExtension, runs_bind,
    runs_write_watched, and_assoc, exists_and_left, exists_eq_left, runs_rename_watched, Nominal,
    FileMap.get_put, if_true]
  simp [rewriteRequests, replaceSidecar]

theorem runs_classifyBudgetExhausted_watched {exhausted : Bool}
    (h : Runs Watched (classifyBudgetExhausted e) ((fs, readings), log) exhausted u) :
    u = ((fs, u.1.2), log) := by
  unfold classifyBudgetExhausted at h
  cases hd : e.deliveredAt with
  | none =>
    rw [hd] at h
    obtain ⟨-, rfl⟩ := h
    rfl
  | some at_ =>
    simp only [hd, runs_bind, runs_now_watched] at h
    obtain ⟨_, w, ⟨-, hw⟩, -, rfl⟩ := h
    exact hw

theorem runs_now_then_watched {α : Type} {k : DateTime → Act α} {a : α} :
    Runs Watched (now >>= k) ((fs, readings), log) a u ↔
      ∃ at_ readings', readings = at_ :: readings' ∧
        Runs Watched (k at_) ((fs, readings'), log) a u := by
  simp only [runs_bind, runs_now_watched]
  constructor
  · rintro ⟨at_, w, ⟨hr, hw⟩, h⟩
    rw [hw] at h
    exact ⟨at_, w.1.2, hr, h⟩
  · rintro ⟨at_, readings', hr, h⟩
    exact ⟨at_, _, ⟨hr, rfl⟩, h⟩

theorem runs_budget_then_watched {α : Type} {k : Bool → Act α} {a : α} :
    Runs Watched (classifyBudgetExhausted e >>= k) ((fs, readings), log) a u ↔
      ∃ exhausted readings',
        Runs Watched (classifyBudgetExhausted e) ((fs, readings), log) exhausted
          ((fs, readings'), log) ∧
        Runs Watched (k exhausted) ((fs, readings'), log) a u := by
  rw [runs_bind]
  constructor
  · rintro ⟨exhausted, w, hw, h⟩
    have hfs := runs_classifyBudgetExhausted_watched hw
    rw [hfs] at hw h
    exact ⟨exhausted, w.1.2, hw, h⟩
  · rintro ⟨exhausted, readings', hw, h⟩
    exact ⟨exhausted, _, hw, h⟩

end Rules

/-! ## The scan -/

/-- The ways a scan of a part of `delivered/` goes, one constructor for each turn of the loop. -/
inductive ScanRun : Finset ClipId → List Path → (Fs × List DateTime) × List Req →
    Finset ClipId × List ClipQueueEntry → (Fs × List DateTime) × List Req → Prop
  | nil {seen : Finset ClipId} {s : (Fs × List DateTime) × List Req} : ScanRun seen [] s (seen, []) s
  | pass {seen : Finset ClipId} {p : Path} {rest : List Path} {s u : (Fs × List DateTime) × List Req}
      {v : Finset ClipId × List ClipQueueEntry} :
      (∀ c, p = .queue .delivered c .json → c ∈ seen ∨ s.1.1.get p = none) →
      ScanRun seen rest s v u → ScanRun seen (p :: rest) s v u
  | settle {seen : Finset ClipId} {c : ClipId} {e : ClipQueueEntry} {rest : List Path}
      {s u : (Fs × List DateTime) × List Req} {v : Finset ClipId × List ClipQueueEntry} :
      c ∉ seen → s.1.1.get (.queue .delivered c .json) = some (.sidecar e) →
      isPollable e = false → ScanRun (insert e.clipId seen) rest s v u →
      ScanRun seen (.queue .delivered c .json :: rest) s v u
  | expire {seen : Finset ClipId} {c : ClipId} {e : ClipQueueEntry} {rest : List Path}
      {at_ : DateTime} {fs : Fs} {readings readings' : List DateTime} {log : List Req}
      {u : (Fs × List DateTime) × List Req} {v : Finset ClipId × List ClipQueueEntry} :
      c ∉ seen → fs.get (.queue .delivered c .json) = some (.sidecar e) → isPollable e = true →
      Runs Watched (classifyBudgetExhausted e) ((fs, readings), log) true
        ((fs, at_ :: readings'), log) →
      ScanRun (insert e.clipId seen) rest
        ((replaceSidecar fs .delivered e.clipId (lostRecord e at_), readings'),
          log ++ rewriteRequests (lostRecord e at_)) v u →
      ScanRun seen (.queue .delivered c .json :: rest) ((fs, readings), log) v u
  | hand {seen seen' : Finset ClipId} {c : ClipId} {e : ClipQueueEntry} {rest : List Path} {fs : Fs}
      {readings readings' : List DateTime} {log : List Req} {u : (Fs × List DateTime) × List Req}
      {es : List ClipQueueEntry} :
      c ∉ seen → fs.get (.queue .delivered c .json) = some (.sidecar e) → isPollable e = true →
      Runs Watched (classifyBudgetExhausted e) ((fs, readings), log) false
        ((fs, readings'), log) →
      ScanRun seen rest ((fs, readings'), log) (seen', es) u →
      ScanRun seen (.queue .delivered c .json :: rest) ((fs, readings), log) (seen', e :: es) u

/-- A turn that reads nothing. -/
theorem scanRun_pass_iff {p : Path} {rest : List Path} {v : Finset ClipId × List ClipQueueEntry}
    (hp : ∀ c, p = .queue .delivered c .json → c ∈ seen ∨ s.1.1.get p = none) :
    ScanRun seen (p :: rest) s v u ↔ ScanRun seen rest s v u := by
  have hread : ∀ {c b}, p = .queue .delivered c .json → c ∉ seen → s.1.1.get p ≠ some b := by
    intro c b hc hseen hb
    rcases hp c hc with hin | hnone
    · exact hseen hin
    · rw [hb] at hnone
      cases hnone
  constructor
  · intro h
    cases h with
    | pass _ h => exact h
    | settle hc he => exact absurd he (hread rfl hc)
    | expire hc he => exact absurd he (hread rfl hc)
    | hand hc he => exact absurd he (hread rfl hc)
  · exact .pass hp

/-- A turn that reads the sidecar `e`. -/
theorem scanRun_read_iff {c : ClipId} {rest : List Path} {v : Finset ClipId × List ClipQueueEntry}
    (hc : c ∉ seen) (he : fs.get (.queue .delivered c .json) = some (.sidecar e)) :
    ScanRun seen (.queue .delivered c .json :: rest) ((fs, readings), log) v u ↔
      (isPollable e = false ∧ ScanRun (insert e.clipId seen) rest ((fs, readings), log) v u) ∨
      (isPollable e = true ∧ ∃ at_ readings',
        Runs Watched (classifyBudgetExhausted e) ((fs, readings), log) true
          ((fs, at_ :: readings'), log) ∧
        ScanRun (insert e.clipId seen) rest
          ((replaceSidecar fs .delivered e.clipId (lostRecord e at_), readings'),
            log ++ rewriteRequests (lostRecord e at_)) v u) ∨
      (isPollable e = true ∧ ∃ readings' es, v.2 = e :: es ∧
        Runs Watched (classifyBudgetExhausted e) ((fs, readings), log) false
          ((fs, readings'), log) ∧
        ScanRun seen rest ((fs, readings'), log) (v.1, es) u) := by
  constructor
  · intro h
    cases h with
    | pass hp _ =>
      rcases hp c rfl with hp | hp
      · exact absurd hp hc
      · rw [he] at hp
        cases hp
    | settle _ he' hp h =>
      obtain rfl := sidecar_unique he he'
      exact Or.inl ⟨hp, h⟩
    | expire _ he' hp hb h =>
      obtain rfl := sidecar_unique he he'
      exact Or.inr (Or.inl ⟨hp, _, _, hb, h⟩)
    | hand _ he' hp hb h =>
      obtain rfl := sidecar_unique he he'
      exact Or.inr (Or.inr ⟨hp, _, _, rfl, hb, h⟩)
  · rintro (⟨hp, h⟩ | ⟨hp, at_, readings', hb, h⟩ | ⟨hp, readings', es, hv, hb, h⟩)
    · exact .settle hc he hp h
    · exact .expire hc he hp hb h
    · obtain ⟨w, r⟩ := v
      obtain rfl : r = e :: es := hv
      exact .hand hc he hp hb h

/-- Where every sidecar decodes, the scan goes in one of these ways. -/
theorem runs_scanLoop_watched {l : List Path}
    {v : Finset ClipId × Except PollerError (List ClipQueueEntry)}
    (hd : AllDecode fs) (hl : ∀ p ∈ l, p.inDir .delivered = true) :
    Runs Watched (scanLoop seen l) ((fs, readings), log) v u ↔
      ∃ es, v.2 = .ok es ∧ ScanRun seen l ((fs, readings), log) (v.1, es) u := by
  induction l generalizing seen fs readings log v u with
  | nil =>
    constructor
    · rintro ⟨rfl, rfl⟩
      exact ⟨[], rfl, .nil⟩
    · rintro ⟨es, hv, h⟩
      obtain ⟨w, r⟩ := v
      obtain rfl : r = .ok es := hv
      cases h
      exact ⟨rfl, rfl⟩
  | cons p rest ih =>
    have hl' : ∀ q ∈ rest, q.inDir .delivered = true := fun q hq => hl q (List.mem_cons_of_mem _ hq)
    rw [scanLoop]
    by_cases hx : p.hasExt .json = true
    · obtain ⟨c, rfl⟩ := inDir_and_hasExt_iff.mp ⟨hl p List.mem_cons_self, hx⟩
      simp only [hx, if_true, Path.fileStem]
      by_cases hseen : c ∈ seen
      · -- the scan skips a clip it has seen settled
        rw [if_pos hseen, ih hd hl']
        have hpass : ∀ c', Path.queue .delivered c .json = .queue .delivered c' .json →
            c' ∈ seen ∨ fs.get (.queue .delivered c .json) = none := by
          rintro c' ⟨⟩
          exact Or.inl hseen
        simp only [scanRun_pass_iff (s := ((fs, readings), log)) hpass]
      · rw [if_neg hseen]
        simp only [runs_bind, runs_readSidecar_watched, and_assoc, exists_and_left, exists_eq_left]
        rcases sidecarAt_cases fs (.queue .delivered c .json) with
          ⟨hb, hr⟩ | ⟨e, hb, hr⟩ | ⟨data, hb, hr⟩ <;> rw [hr]
        · -- the sidecar vanished
          dsimp only
          rw [ih hd hl']
          simp only [scanRun_pass_iff (s := ((fs, readings), log)) fun _ _ => Or.inr hb]
        · dsimp only
          simp only [scanRun_read_iff hseen hb]
          by_cases hpoll : isPollable e = true
          · have hdl : ∀ at_, AllDecode (replaceSidecar fs .delivered e.clipId (lostRecord e at_)) :=
              fun at_ => AllDecode.rewrite (e := lostRecord e at_) hd
            simp only [hpoll, if_true, runs_budget_then_watched, true_and, Bool.true_eq_false,
              false_and, false_or]
            constructor
            · rintro ⟨exhausted, readings', hw, h⟩
              cases exhausted with
              | true =>
                -- the budget is exhausted: the entry is rewritten as lost
                rw [if_pos rfl, runs_now_then_watched] at h
                obtain ⟨at_, readings'', rfl, h⟩ := h
                rw [runs_bind] at h
                obtain ⟨_, _, hup, h⟩ := h
                obtain ⟨rfl, rfl⟩ := runs_updateDeliveredSidecar_watched.mp hup
                obtain ⟨es, hv, h⟩ := (ih (hdl at_) hl').mp h
                exact ⟨es, hv, Or.inl ⟨at_, readings'', hw, h⟩⟩
              | false =>
                -- the entry is handed on
                simp only [Bool.false_eq_true, if_false, runs_bind] at h
                obtain ⟨⟨w, r⟩, u', hrest, h⟩ := h
                obtain ⟨es, hr, hrest⟩ := (ih hd hl').mp hrest
                obtain rfl : r = .ok es := hr
                obtain ⟨rfl, rfl⟩ := h
                exact ⟨e :: es, rfl, Or.inr ⟨readings', es, rfl, hw, hrest⟩⟩
            · rintro ⟨es, hv, ⟨at_, readings', hw, h⟩ | ⟨readings', es', rfl, hw, h⟩⟩
              · refine ⟨true, _, hw, ?_⟩
                rw [if_pos rfl, runs_now_then_watched]
                refine ⟨at_, readings', rfl, ?_⟩
                rw [runs_bind]
                exact ⟨.ok (), _, runs_updateDeliveredSidecar_watched.mpr ⟨rfl, rfl⟩,
                  (ih (hdl at_) hl').mpr ⟨es, hv, h⟩⟩
              · obtain ⟨w, r⟩ := v
                obtain rfl : r = .ok (e :: es') := hv
                refine ⟨false, _, hw, ?_⟩
                simp only [Bool.false_eq_true, if_false, runs_bind]
                exact ⟨(w, .ok es'), u, (ih hd hl').mpr ⟨es', rfl, h⟩, rfl, rfl⟩
          · -- a settled entry joins the skip set
            rw [if_neg hpoll, ih hd hl']
            simp [hpoll]
        · exact absurd ⟨data, hb⟩ (hd c)
    · -- media and temporary files are passed over
      simp only [hx, Bool.false_eq_true, if_false]
      rw [ih hd hl']
      have hpass : ∀ c, p = .queue .delivered c .json → c ∈ seen ∨ fs.get p = none := by
        rintro c rfl
        simp [Path.hasExt] at hx
      simp only [scanRun_pass_iff (s := ((fs, readings), log)) hpass]

/-- Any two skip sets of settled clips lead to the same scan. -/
theorem ScanRun.of_skips {l : List Path} {v : Finset ClipId × List ClipQueueEntry}
    (h : ScanRun seen l s v u) (hn : Named s.1.1) (hd : AllDecode s.1.1)
    (hs : SkipsSettled s.1.1 seen) (hs' : SkipsSettled s.1.1 seen') :
    ∃ w, ScanRun seen' l s (w, v.2) u := by
  induction h generalizing seen' with
  | nil => exact ⟨seen', .nil⟩
  | @pass seen p rest s u v hp h ih =>
    by_cases hread : ∃ c e, p = .queue .delivered c .json ∧ c ∉ seen' ∧
        s.1.1.get p = some (.sidecar e)
    · -- the other scan reads the sidecar: it is settled, so that scan skips it from now on
      obtain ⟨c, e, rfl, hc, he⟩ := hread
      obtain rfl := hn _ _ _ he
      have hset : isPollable e = false := by
        rcases hp _ rfl with hseen | hnone
        · exact hs _ hseen e he
        · rw [he] at hnone
          cases hnone
      obtain ⟨w, hw⟩ := ih hn hd hs (hs'.insert he hset)
      exact ⟨w, .settle hc he hset hw⟩
    · obtain ⟨w, hw⟩ := ih hn hd hs hs'
      refine ⟨w, .pass (fun c hc => ?_) hw⟩
      by_contra hne
      rw [not_or] at hne
      subst hc
      rcases hb : s.1.1.get (.queue .delivered c .json) with _ | e | data
      · exact hne.2 hb
      · exact hread ⟨c, e, rfl, hne.1, hb⟩
      · exact hd c ⟨data, hb⟩
  | @settle seen c e rest s u v hc he hp h ih =>
    obtain rfl := hn _ _ _ he
    by_cases hc' : e.clipId ∈ seen'
    · -- the other scan passes over the settled clip
      obtain ⟨w, hw⟩ := ih hn hd (hs.insert he hp) hs'
      exact ⟨w, .pass (by rintro c' ⟨⟩; exact Or.inl hc') hw⟩
    · obtain ⟨w, hw⟩ := ih hn hd (hs.insert he hp) (hs'.insert he hp)
      exact ⟨w, .settle hc' he hp hw⟩
  | @expire seen c e rest at_ fs readings readings' log u v hc he hp hb h ih =>
    -- a pollable entry is in neither set
    obtain rfl := hn _ _ _ he
    have hc' : e.clipId ∉ seen' := fun hc' => by simpa [hp] using hs' _ hc' e he
    have hlost : ∀ {seen}, SkipsSettled fs seen → SkipsSettled
        (replaceSidecar fs .delivered e.clipId (lostRecord e at_)) (insert e.clipId seen) :=
      fun h => SkipsSettled.rewrite (e := lostRecord e at_) h isPollable_lostRecord
    have hnl : Named (replaceSidecar fs .delivered e.clipId (lostRecord e at_)) :=
      hn.replaceSidecar .delivered (lostRecord e at_)
    have hdl : AllDecode (replaceSidecar fs .delivered e.clipId (lostRecord e at_)) :=
      AllDecode.rewrite (e := lostRecord e at_) hd
    obtain ⟨w, hw⟩ := ih hnl hdl (hlost hs) (hlost hs')
    exact ⟨w, .expire hc' he hp hb hw⟩
  | @hand seen seen₁ c e rest fs readings readings' log u es hc he hp hb h ih =>
    obtain rfl := hn _ _ _ he
    have hc' : e.clipId ∉ seen' := fun hc' => by simpa [hp] using hs' _ hc' e he
    obtain ⟨w, hw⟩ := ih hn hd hs hs'
    exact ⟨w, .hand hc' he hp hb hw⟩

/-- What a scan adds to the skip set, changes and asks to be changed. -/
structure ScanReport (seen : Finset ClipId) (fs : Fs) (log : List Req) (seen' : Finset ClipId)
    (t : Fs) (log' : List Req) : Prop where
  subset : seen ⊆ seen'
  settled : ∀ c ∈ seen', c ∈ seen ∨
    ∃ e, t.get (.queue .delivered c .json) = some (.sidecar e) ∧ isPollable e = false
  changed : ∀ d c, t.get (.queue d c .json) = fs.get (.queue d c .json) ∨
    ∃ e at_, d = .delivered ∧ e.clipId = c ∧ isPollable e = true ∧
      fs.get (.queue d c .json) = some (.sidecar e) ∧
      t.get (.queue d c .json) = some (.sidecar (lostRecord e at_)) ∧
      ∀ r ∈ rewriteRequests (lostRecord e at_), r ∈ log'
  asked : ∀ r ∈ log', r ∈ log ∨ ∃ e at_, fs.get (.queue .delivered e.clipId .json) =
    some (.sidecar e) ∧ isPollable e = true ∧ r ∈ rewriteRequests (lostRecord e at_)
  journal : ∀ r ∈ log, r ∈ log'

/-- A settled record stays. -/
theorem ScanReport.kept {c : ClipId} (h : ScanReport seen fs log seen' t log')
    (he : fs.get (.queue .delivered c .json) = some (.sidecar e)) (hp : isPollable e = false) :
    t.get (.queue .delivered c .json) = some (.sidecar e) := by
  rcases h.changed .delivered c with hc | ⟨e', at_, -, -, hp', he', -⟩
  · rw [hc, he]
  · obtain rfl := sidecar_unique he he'
    rw [hp] at hp'
    cases hp'

theorem ScanReport.allDecode (h : ScanReport seen fs log seen' t log') (hd : AllDecode fs) :
    AllDecode t := by
  rintro c ⟨data, ht⟩
  rcases h.changed .delivered c with hc | ⟨e, at_, -, -, -, -, hlost, -⟩
  · exact hd c ⟨data, hc ▸ ht⟩
  · cases hlost.symm.trans ht

/-- Only `delivered/` changes. -/
theorem ScanReport.other {d : Dir} (h : ScanReport seen fs log seen' t log') (hd : d ≠ .delivered)
    (c : ClipId) : t.get (.queue d c .json) = fs.get (.queue d c .json) := by
  rcases h.changed d c with hc | ⟨_, _, hd', -⟩
  · exact hc
  · exact absurd hd' hd

/-- No sidecar appears. -/
theorem ScanReport.absent {c : ClipId} (h : ScanReport seen fs log seen' t log')
    (hf : fs.get (.queue .delivered c .json) = none) :
    t.get (.queue .delivered c .json) = none := by
  rcases h.changed .delivered c with hc | ⟨e, at_, -, -, -, he, -⟩
  · exact hc.trans hf
  · cases he.symm.trans hf

/-- A turn that reads a settled record, before the turns of `h`. -/
theorem ScanReport.settle (h : ScanReport (insert e.clipId seen) fs log seen' t log')
    (he : fs.get (.queue .delivered e.clipId .json) = some (.sidecar e))
    (hp : isPollable e = false) : ScanReport seen fs log seen' t log' where
  subset := (Finset.subset_insert _ _).trans h.subset
  settled c hc := by
    rcases h.settled c hc with hc | hc
    · rcases Finset.mem_insert.mp hc with rfl | hc
      · exact Or.inr ⟨e, h.kept he hp, hp⟩
      · exact Or.inl hc
    · exact Or.inr hc
  changed := h.changed
  asked := h.asked
  journal := h.journal

/-- A turn that gives up on `e`, before the turns of `h`. -/
theorem ScanReport.expire {at_ : DateTime}
    (h : ScanReport (insert e.clipId seen)
      (replaceSidecar fs .delivered e.clipId (lostRecord e at_))
      (log ++ rewriteRequests (lostRecord e at_)) seen' t log')
    (he : fs.get (.queue .delivered e.clipId .json) = some (.sidecar e))
    (hp : isPollable e = true) : ScanReport seen fs log seen' t log' := by
  have hlost : isPollable (lostRecord e at_) = false := isPollable_lostRecord
  have hnow : (replaceSidecar fs .delivered e.clipId (lostRecord e at_)).get
      (.queue .delivered e.clipId .json) = some (.sidecar (lostRecord e at_)) :=
    get_replaceSidecar_self
  have hother : ∀ d c, ¬(d = .delivered ∧ c = e.clipId) →
      (replaceSidecar fs .delivered e.clipId (lostRecord e at_)).get (.queue d c .json) =
        fs.get (.queue d c .json) := fun d c hdc => get_replaceSidecar_other hdc
  refine ⟨(Finset.subset_insert _ _).trans h.subset, fun c hc => ?_, fun d c => ?_, fun r hr => ?_,
    fun r hr => h.journal r (List.mem_append_left _ hr)⟩
  · rcases h.settled c hc with hc | hc
    · rcases Finset.mem_insert.mp hc with rfl | hc
      · exact Or.inr ⟨_, h.kept hnow hlost, hlost⟩
      · exact Or.inl hc
    · exact Or.inr hc
  · by_cases hdc : d = .delivered ∧ c = e.clipId
    · obtain ⟨rfl, rfl⟩ := hdc
      exact Or.inr ⟨e, at_, rfl, rfl, hp, he, h.kept hnow hlost, fun r hr =>
        h.journal r (List.mem_append_right _ hr)⟩
    · rw [← hother d c hdc]
      exact h.changed d c
  · rcases h.asked r hr with hr | ⟨e', at', he', hp', hr⟩
    · rcases List.mem_append.mp hr with hr | hr
      · exact Or.inl hr
      · exact Or.inr ⟨e, at_, he, hp, hr⟩
    · refine Or.inr ⟨e', at', ?_, hp', hr⟩
      rw [← hother .delivered e'.clipId, he']
      rintro ⟨-, hid⟩
      rw [hid, hnow] at he'
      obtain rfl := Blob.sidecar.inj (Option.some.inj he')
      rw [hlost] at hp'
      cases hp'

theorem ScanRun.report {l : List Path} {v : Finset ClipId × List ClipQueueEntry}
    (h : ScanRun seen l s v u) (hn : Named s.1.1) :
    ScanReport seen s.1.1 s.2 v.1 u.1.1 u.2 := by
  induction h with
  | nil =>
    exact ⟨Finset.Subset.refl _, fun c hc => Or.inl hc, fun _ _ => Or.inl rfl, fun r hr => Or.inl hr,
      fun r hr => hr⟩
  | pass hp h ih => exact ih hn
  | settle hc he hp h ih =>
    obtain rfl := hn _ _ _ he
    exact (ih hn).settle he hp
  | @expire seen c e rest at_ fs readings readings' log u v hc he hp hb h ih =>
    obtain rfl := hn _ _ _ he
    have hnl : Named (replaceSidecar fs .delivered e.clipId (lostRecord e at_)) :=
      hn.replaceSidecar .delivered (lostRecord e at_)
    exact (ih hnl).expire he hp
  | hand hc he hp hb h ih => exact ih hn

theorem runs_readDir_watched {d : Dir} {v : Except IoError (List Path)} :
    Runs Watched (readDir d) ((fs, readings), log) v u ↔
      (∃ l, fs.Lists (fun p => p.inDir d) l ∧ v = .ok l) ∧ u = ((fs, readings), log) := by
  obtain ⟨⟨t, readings'⟩, log'⟩ := u
  have hlog : [Req.readDir d].filter Req.changes = [] := rfl
  simp only [readDir, ask, runs_request, journaled, Clocked, Nominal, hlog, List.append_nil,
    Prod.mk.injEq]
  tauto

/-- A scan is the loop over some listing of `delivered/`. -/
theorem runs_scanNonTerminal_watched
    {v : Finset ClipId × Except PollerError (List ClipQueueEntry)} (hd : AllDecode fs) :
    Runs Watched (scanNonTerminal seen) ((fs, readings), log) v u ↔
      ∃ l es, fs.Lists (fun p => p.inDir .delivered) l ∧ v.2 = .ok es ∧
        ScanRun seen l ((fs, readings), log) (v.1, es) u := by
  simp only [scanNonTerminal, runs_bind, runs_readDir_watched]
  constructor
  · rintro ⟨_, _, ⟨⟨l, hl, rfl⟩, rfl⟩, h⟩
    obtain ⟨es, hv, h⟩ := (runs_scanLoop_watched hd fun p hp => (hl.mem.mp hp).1).mp h
    exact ⟨l, es, hl, hv, h⟩
  · rintro ⟨l, es, hl, hv, h⟩
    refine ⟨.ok l, _, ⟨⟨l, hl, rfl⟩, rfl⟩, ?_⟩
    exact (runs_scanLoop_watched hd fun p hp => (hl.mem.mp hp).1).mpr ⟨es, hv, h⟩

/-- Any two skip sets of settled clips lead a scan to the same entries, files, readings and changes
asked for. -/
theorem scanNonTerminal_skips {r : Except PollerError (List ClipQueueEntry)} (hn : Named fs)
    (hd : AllDecode fs) (hs : SkipsSettled fs seen) (hs' : SkipsSettled fs seen')
    (h : ∃ w, Runs Watched (scanNonTerminal seen) ((fs, readings), log) (w, r) u) :
    ∃ w, Runs Watched (scanNonTerminal seen') ((fs, readings), log) (w, r) u := by
  obtain ⟨w, h⟩ := h
  obtain ⟨l, es, hl, rfl, hrun⟩ := (runs_scanNonTerminal_watched hd).mp h
  obtain ⟨w', hrun'⟩ := hrun.of_skips hn hd hs hs'
  exact ⟨w', (runs_scanNonTerminal_watched hd).mpr ⟨l, es, hl, rfl, hrun'⟩⟩

/-- What a scan returns and leaves. -/
theorem scanned_of_watched {v : Finset ClipId × Except PollerError (List ClipQueueEntry)}
    (hn : Named fs) (hd : AllDecode fs)
    (h : Runs Watched (scanNonTerminal seen) ((fs, readings), log) v u) :
    ∃ l es, fs.Lists (fun p => p.inDir .delivered) l ∧ v.2 = .ok es ∧ Scanned fs u.1.1 l es ∧
      ScanReport seen fs log v.1 u.1.1 u.2 := by
  have hnom : Runs Nominal (scanNonTerminal seen) fs v u.1.1 := runs_nominal (runs_of_journaled h)
  obtain ⟨_, _, -, -, hrun⟩ := (runs_scanNonTerminal_watched hd).mp h
  simp only [scanNonTerminal, runs_bind, runs_readDir, Nominal] at hnom
  obtain ⟨_, w, ⟨rfl, l, hl, rfl⟩, hscan⟩ := hnom
  obtain ⟨es, hr, hs⟩ := runs_scanLoop hn hl.nodup (fun p hp => (hl.mem.mp hp).1) hscan
  exact ⟨l, es, hl, hr, hs, hrun.report hn⟩

/-! ## One poll -/

theorem runs_getUrl_watched {url : String} {v : Except String HttpResponse}
    (h : Runs Watched (getUrl url) ((fs, readings), log) v u) : u = ((fs, u.1.2), log) := by
  obtain ⟨⟨t, readings'⟩, log'⟩ := u
  have hlog : [Req.getUrl url].filter Req.changes = [] := rfl
  simp only [getUrl, ask, runs_request, journaled, Clocked, Nominal, hlog, List.append_nil] at h
  obtain ⟨⟨rfl, -⟩, rfl⟩ := h
  rfl

theorem runs_getClassifyTask_watched {client : PerchpubClient} {showUuid : Uuid → String} {id : Uuid}
    {r : Except ClientError ClassifyTaskPublic}
    (h : Runs Watched (client.getClassifyTask showUuid id) ((fs, readings), log) r u) :
    u = ((fs, u.1.2), log) := by
  unfold PerchpubClient.getClassifyTask at h
  cases ha : client.allowed ("/api/v1/classify-task/" ++ showUuid id) with
  | error err =>
    rw [ha] at h
    obtain ⟨-, rfl⟩ := h
    rfl
  | ok url =>
    simp only [ha, runs_bind] at h
    obtain ⟨p, w, hw, h⟩ := h
    have hw' := runs_getUrl_watched hw
    generalize w.1.2 = rs at hw'
    subst hw'
    cases p with
    | error message =>
      obtain ⟨-, rfl⟩ := h
      rfl
    | ok response =>
      rw [runs_now_then_watched] at h
      obtain ⟨_, readings', -, -, rfl⟩ := h
      rfl

/-- The ways polling an entry goes: what becomes of the skip set, the files and the changes asked
for. -/
inductive PollRun (seen : Finset ClipId) (fs : Fs) (e : ClipQueueEntry) :
    Finset ClipId → Fs → List Req → Prop
  | transient : PollRun seen fs e seen fs []
  | status (status : ClassifyTaskStatus) :
      PollRun seen fs e (if status.isTerminal then insert e.clipId seen else seen)
        (replaceSidecar fs .delivered e.clipId (polledRecord e status))
        (rewriteRequests (polledRecord e status))
  | lost (at_ : DateTime) : PollRun seen fs e (insert e.clipId seen)
      (replaceSidecar fs .delivered e.clipId (lostRecord e at_)) (rewriteRequests (lostRecord e at_))

theorem runs_pollOne_watched {client : PerchpubClient} {showUuid : Uuid → String}
    {v : Finset ClipId × Except PollerError Unit}
    (h : Runs Watched (pollOne client showUuid seen e) ((fs, readings), []) v u) :
    v.2 = .ok () ∧ PollRun seen fs e v.1 u.1.1 u.2 := by
  unfold pollOne at h
  cases htask : e.classifyTaskId with
  | none =>
    rw [htask] at h
    obtain ⟨x, -⟩ := h
    exact nomatch x
  | some taskId =>
    simp only [htask, runs_bind] at h
    obtain ⟨r, w, hw, h⟩ := h
    have hw' := runs_getClassifyTask_watched hw
    generalize w.1.2 = rs at hw'
    subst hw'
    cases r with
    | ok task =>
      simp only [runs_bind, runs_updateDeliveredSidecar_watched, and_assoc, exists_and_left,
        exists_eq_left] at h
      obtain ⟨rfl, rfl⟩ := h
      exact ⟨rfl, htask ▸ @PollRun.status seen fs e task.status⟩
    | error err =>
      dsimp only at h
      cases hk : classifyPollError err with
      | transient =>
        rw [hk] at h
        obtain ⟨rfl, rfl⟩ := h
        exact ⟨rfl, .transient⟩
      | terminal =>
        simp only [hk, runs_now_then_watched] at h
        obtain ⟨at_, readings', -, h⟩ := h
        simp only [runs_bind, runs_updateDeliveredSidecar_watched, and_assoc, exists_and_left,
          exists_eq_left] at h
        obtain ⟨rfl, rfl⟩ := h
        exact ⟨rfl, htask ▸ @PollRun.lost seen fs e at_⟩

end Perchstation
