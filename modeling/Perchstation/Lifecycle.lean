import Perchstation.Delivery.PollRules
import Perchstation.Delivery.RunnerRules
import Perchstation.Queue.Eviction
import Mathlib.Logic.Relation

/-!
# Lifecycle — the phases of a clip and how it moves between them

A clip is gone (or not there yet), waits in `pending/`, is being uploaded from `inflight/`, or lies
in `delivered/` without its media.  `Phase.Next` is the purpose of the queue, stated without files;
`At` says which files a phase stands for.  An entry that waits or is uploaded has no outcome and one
in `delivered/` has one: the phases carry this, so that no other combination can be written down.
-/

namespace Perchstation

open Resumption QueueStore

/-- A sidecar of `c` without an outcome. -/
abbrev OpenEntry (c : ClipId) : Type := {e : ClipQueueEntry // e.clipId = c ∧ e.outcome = none}

/-- A sidecar of `c` with its outcome. -/
abbrev ClosedEntry (c : ClipId) : Type := {e : ClipQueueEntry // e.clipId = c ∧ e.outcome.isSome}

theorem OpenEntry.outcome_ne_some {c : ClipId} (e : OpenEntry c) : ¬ e.1.outcome.isSome = true := by
  simp [e.2.2]

/-- The entry of an attempt that starts at `at_`. -/
def OpenEntry.started {c : ClipId} (o : OpenEntry c) (at_ : DateTime) : OpenEntry c :=
  ⟨startAttempt o.1 at_, startAttempt_clipId.trans o.2.1, startAttempt_outcome.trans o.2.2⟩

/-- Where the clip `c` is. -/
inductive Phase (c : ClipId)
  | gone
  | pending (media : Blob) (entry : OpenEntry c)
  | inflight (media : Blob) (entry : OpenEntry c)
  | delivered (entry : ClosedEntry c)

namespace Phase

variable {c : ClipId} {p q r : Phase c}

/-- The record the clip has in this phase. -/
def entry? : Phase c → Option ClipQueueEntry
  | .gone => none
  | .pending _ e => some e.1
  | .inflight _ e => some e.1
  | .delivered e => some e.1

/-- One move of a clip. -/
inductive Next : Phase c → Phase c → Prop
  | attempt {m : Blob} {e e' : OpenEntry c} : e'.1.attempts = saturatingAdd32 e.1.attempts 1 →
      Next (.pending m e) (.inflight m e')
  | retry {m : Blob} {e e' : OpenEntry c} : e'.1.attempts = e.1.attempts →
      Next (.inflight m e) (.pending m e')
  | settle {m : Blob} {e : OpenEntry c} {e' : ClosedEntry c} : e'.1.attempts = e.1.attempts →
      Next (.inflight m e) (.delivered e')
  | poll {e e' : ClosedEntry c} : PollUpdate e.1 e'.1 → Next (.delivered e) (.delivered e')
  | evict {m : Blob} {e : OpenEntry c} : Next (.pending m e) .gone
  | evictUndeliverable {e : ClosedEntry c} : isUndeliverable e.1 = true → Next (.delivered e) .gone
  | prune {e : ClosedEntry c} {before : DateTime} : isPrunable e.1 before = true →
      Next (.delivered e) .gone

theorem next_started (m : Blob) (o : OpenEntry c) (at_ : DateTime) :
    Next (.pending m o) (.inflight m (o.started at_)) := .attempt startAttempt_attempts

/-- Any number of moves. -/
abbrev Moves : Phase c → Phase c → Prop := Relation.ReflTransGen Next

theorem le_saturatingAdd32_one (n : UInt32) : n ≤ saturatingAdd32 n 1 := by
  rw [UInt32.le_iff_toNat_le, saturatingAdd32_toNat]
  have h1 : (1 : UInt32).toNat = 1 := rfl
  have hn := n.toNat_lt
  omega

theorem Next.gone_elim (h : Next (.gone : Phase c) q) : False := by
  cases h

/-- A move leaves no record, or one with at least as many attempts and, once there is an outcome,
the same outcome. -/
theorem Next.entry {e e' : ClipQueueEntry} (h : Next p q) (he : p.entry? = some e)
    (he' : q.entry? = some e') :
    e.attempts ≤ e'.attempts ∧ (e.outcome.isSome → e'.outcome = e.outcome) := by
  cases h with
  | @attempt _ e₁ e₂ ha =>
    obtain rfl : e₁.1 = e := Option.some.inj he
    obtain rfl : e₂.1 = e' := Option.some.inj he'
    exact ⟨ha ▸ le_saturatingAdd32_one _, fun h => absurd h (OpenEntry.outcome_ne_some e₁)⟩
  | @retry _ e₁ e₂ ha =>
    obtain rfl : e₁.1 = e := Option.some.inj he
    obtain rfl : e₂.1 = e' := Option.some.inj he'
    exact ⟨ha ▸ UInt32.le_refl _, fun h => absurd h (OpenEntry.outcome_ne_some e₁)⟩
  | @settle _ e₁ e₂ ha =>
    obtain rfl : e₁.1 = e := Option.some.inj he
    obtain rfl : e₂.1 = e' := Option.some.inj he'
    exact ⟨ha ▸ UInt32.le_refl _, fun h => absurd h (OpenEntry.outcome_ne_some e₁)⟩
  | @poll e₁ e₂ hu =>
    obtain rfl : e₁.1 = e := Option.some.inj he
    obtain rfl : e₂.1 = e' := Option.some.inj he'
    exact ⟨hu.attempts ▸ UInt32.le_refl _, fun _ => hu.outcome⟩
  | evict => cases he'
  | evictUndeliverable => cases he'
  | prune => cases he'

theorem Moves.of_gone (h : Moves (.gone : Phase c) q) : q = .gone := by
  induction h with
  | refl => rfl
  | tail _ hn ih =>
    subst ih
    exact hn.gone_elim.elim

/-- A record that is neither pollable, nor prunable at any time, nor Undeliverable stays as it is. -/
theorem Moves.of_stuck {d : ClosedEntry c} (hpoll : isPollable d.1 = false)
    (hprune : ∀ before, isPrunable d.1 before = false) (hevict : isUndeliverable d.1 = false)
    (h : Moves (.delivered d) q) : q = .delivered d := by
  induction h with
  | refl => rfl
  | tail _ hn ih =>
    subst ih
    cases hn with
    | poll hu =>
      rcases hu with hu | ⟨hp, -⟩
      · rw [Subtype.ext hu]
      · rw [hpoll] at hp
        cases hp
    | evictUndeliverable he =>
      rw [hevict] at he
      cases he
    | prune hp =>
      rw [hprune] at hp
      cases hp

/-- The phase is the same, or the clip has come back from its attempt. -/
def Returned (p q : Phase c) : Prop :=
  q = p ∨ ∃ m e e', p = .inflight m e ∧ q = .pending m e' ∧ e'.1.attempts = e.1.attempts

theorem Returned.trans (h : Returned p q) (h' : Returned q r) : Returned p r := by
  rcases h with rfl | ⟨m, e, e', rfl, rfl, ha⟩
  · exact h'
  · rcases h' with rfl | ⟨_, _, _, hp, -⟩
    · exact Or.inr ⟨m, e, e', rfl, rfl, ha⟩
    · cases hp

theorem Returned.moves (h : Returned p q) : p.Moves q := by
  rcases h with rfl | ⟨m, e, e', rfl, rfl, ha⟩
  · exact .refl
  · exact .single (.retry ha)

theorem Returned.of_gone (h : Returned p .gone) : p = .gone := by
  rcases h with h | ⟨_, _, _, -, hp, -⟩
  · exact h.symm
  · cases hp

/-- From `delivered/` a clip only goes away, after any number of polls. -/
theorem Moves.of_delivered {d : ClosedEntry c} (h : Moves (.delivered d) q) :
    q = .gone ∨ ∃ d', q = .delivered d' ∧ PollUpdate d.1 d'.1 := by
  induction h with
  | refl => exact Or.inr ⟨d, rfl, PollUpdate.refl _⟩
  | tail _ hn ih =>
    rcases ih with rfl | ⟨d', rfl, hu⟩
    · exact hn.gone_elim.elim
    · cases hn with
      | poll hu' => exact Or.inr ⟨_, rfl, hu.trans hu'⟩
      | evictUndeliverable => exact Or.inl rfl
      | prune => exact Or.inl rfl

theorem Moves.entry {e e' : ClipQueueEntry} (h : Moves p q) (he : p.entry? = some e)
    (he' : q.entry? = some e') :
    e.attempts ≤ e'.attempts ∧ (e.outcome.isSome → e'.outcome = e.outcome) := by
  induction h generalizing e' with
  | refl =>
    obtain rfl := Option.some.inj (he.symm.trans he')
    exact ⟨UInt32.le_refl _, fun _ => rfl⟩
  | @tail q r _ hn ih =>
    cases hq : q.entry? with
    | none =>
      cases q with
      | gone => exact hn.gone_elim.elim
      | pending => cases hq
      | inflight => cases hq
      | delivered => cases hq
    | some e₁ =>
      obtain ⟨h1, h2⟩ := ih hq
      obtain ⟨h3, h4⟩ := hn.entry hq he'
      refine ⟨UInt32.le_trans h1 h3, fun ho => ?_⟩
      rw [h4 (by rw [h2 ho]; exact ho), h2 ho]

/-- Media and sidecar in one directory, nothing elsewhere. -/
def slot (d₀ : Dir) (media : Option Blob) (e : ClipQueueEntry) (d : Dir) (x : Ext) : Option Blob :=
  if d = d₀ then
    match x with
    | .mp4 => media
    | .json => some (.sidecar e)
    | _ => none
  else none

/-- The contents the phase gives the clip's media and sidecar in each directory. -/
def file : Phase c → Dir → Ext → Option Blob
  | .gone => fun _ _ => none
  | .pending m e => slot .pending (some m) e.1
  | .inflight m e => slot .inflight (some m) e.1
  | .delivered e => slot .delivered none e.1

@[simp] theorem slot_self_mp4 (d : Dir) (media : Option Blob) (e : ClipQueueEntry) :
    slot d media e d .mp4 = media := by
  simp [slot]

@[simp] theorem slot_self_json (d : Dir) (media : Option Blob) (e : ClipQueueEntry) :
    slot d media e d .json = some (.sidecar e) := by
  simp [slot]

theorem slot_of_ne {d d₀ : Dir} (h : d ≠ d₀) (media : Option Blob) (e : ClipQueueEntry) (x : Ext) :
    slot d₀ media e d x = none := if_neg h

theorem slot_json (d d₀ : Dir) (media : Option Blob) (e : ClipQueueEntry) :
    slot d₀ media e d .json = if d = d₀ then some (.sidecar e) else none := rfl

/-- The directory a clip's record lies in tells the phase. -/
theorem file_json_eq_some {d : Dir} {b : Blob} (h : p.file d .json = some b) :
    ∃ e, b = .sidecar e ∧ p.entry? = some e ∧ ((d = .pending ∧ ∃ m e', p = .pending m e') ∨
      (d = .inflight ∧ ∃ m e', p = .inflight m e') ∨ (d = .delivered ∧ ∃ e', p = .delivered e')) := by
  cases p with
  | gone => cases h
  | pending m e =>
    rw [file, slot_json] at h
    split_ifs at h with hd
    exact ⟨e.1, (Option.some.inj h).symm, rfl, Or.inl ⟨hd, m, e, rfl⟩⟩
  | inflight m e =>
    rw [file, slot_json] at h
    split_ifs at h with hd
    exact ⟨e.1, (Option.some.inj h).symm, rfl, Or.inr (Or.inl ⟨hd, m, e, rfl⟩)⟩
  | delivered e =>
    rw [file, slot_json] at h
    split_ifs at h with hd
    exact ⟨e.1, (Option.some.inj h).symm, rfl, Or.inr (Or.inr ⟨hd, e, rfl⟩)⟩

/-- Every file of a clip lies beside its record. -/
theorem file_eq_none_of_ne {d d' : Dir} {b : Blob} {x : Ext}
    (h : p.file d .json = some b) (hne : d' ≠ d) : p.file d' x = none := by
  obtain ⟨-, -, -, ⟨rfl, m, e', rfl⟩ | ⟨rfl, m, e', rfl⟩ | ⟨rfl, e', rfl⟩⟩ := file_json_eq_some h <;>
    exact slot_of_ne hne _ _ _

/-- The files of a clip lie in one directory. -/
theorem dir_unique {d d' : Dir} {x x' : Ext} (h : (p.file d x).isSome) (h' : (p.file d' x').isSome) :
    d = d' := by
  have hslot : ∀ {d₀ media e d x}, (slot d₀ media e d x).isSome = true → d = d₀ := by
    intro d₀ media e d x hs
    by_contra hd
    simp [slot_of_ne hd] at hs
  cases p with
  | gone => cases h
  | pending => exact (hslot h).trans (hslot h').symm
  | inflight => exact (hslot h).trans (hslot h').symm
  | delivered => exact (hslot h).trans (hslot h').symm

theorem slot_mp4_eq_none {d d₀ : Dir} {m : Option Blob} {e : ClipQueueEntry}
    (h : slot d₀ m e d .json = none) : slot d₀ m e d .mp4 = none := by
  rw [slot_json] at h
  split_ifs at h with hd
  exact slot_of_ne hd _ _ _

/-- Without a record beside it there is no media. -/
theorem file_mp4_eq_none {d : Dir} (h : p.file d .json = none) : p.file d .mp4 = none := by
  cases p with
  | gone => rfl
  | pending m e => exact slot_mp4_eq_none (m := some m) h
  | inflight m e => exact slot_mp4_eq_none (m := some m) h
  | delivered e => exact slot_mp4_eq_none (m := none) h

end Phase

/-- The files of `c` are those of the phase. -/
def At (fs : Fs) (c : ClipId) (p : Phase c) : Prop :=
  ∀ d x, d ≠ .corrupt → x.IsMain → fs.get (.queue d c x) = p.file d x

namespace At

variable {fs t : Fs} {c : ClipId} {p q : Phase c}

theorem of_sameClip (h : At fs c p) (hs : SameClip fs t c) : At t c p :=
  fun d x hd hx => (hs d x hx).trans (h d x hd hx)

theorem media (h : At fs c p) {d : Dir} (hd : d ≠ .corrupt) :
    fs.get (.queue d c .mp4) = p.file d .mp4 := h d .mp4 hd (Or.inl rfl)

theorem sidecar (h : At fs c p) {d : Dir} (hd : d ≠ .corrupt) :
    fs.get (.queue d c .json) = p.file d .json := h d .json hd (Or.inr rfl)

/-- The files tell the phase. -/
theorem unique (h : At fs c p) (h' : At fs c q) : p = q := by
  have hfile : ∀ d x, d ≠ .corrupt → x.IsMain → p.file d x = q.file d x := fun d x hd hx =>
    (h d x hd hx).symm.trans (h' d x hd hx)
  have h1 := hfile .pending .mp4 (by simp) (Or.inl rfl)
  have h2 := hfile .pending .json (by simp) (Or.inr rfl)
  have h3 := hfile .inflight .mp4 (by simp) (Or.inl rfl)
  have h4 := hfile .inflight .json (by simp) (Or.inr rfl)
  have h5 := hfile .delivered .json (by simp) (Or.inr rfl)
  cases p <;> cases q <;> simp_all [Phase.file, Phase.slot, Subtype.ext_iff]

/-- A sidecar on disk is the record of the phase. -/
theorem entry_of_get (h : At fs c p) {d : Dir} (hd : d ≠ .corrupt) {e : ClipQueueEntry}
    (he : fs.get (.queue d c .json) = some (.sidecar e)) : p.entry? = some e := by
  obtain ⟨e', he', hent, -⟩ := Phase.file_json_eq_some ((h.sidecar hd).symm.trans he)
  rw [hent, Blob.sidecar.inj he']

theorem not_undecodable (h : At fs c p) {d : Dir} (hd : d ≠ .corrupt) :
    ¬ Undecodable fs (.queue d c .json) := by
  rintro ⟨data, hdata⟩
  obtain ⟨e', he', -⟩ := Phase.file_json_eq_some ((h.sidecar hd).symm.trans hdata)
  cases he'

/-! ### The transitions -/

theorem movedInflight {m : Blob} {e₀ e : OpenEntry c} (h : At fs c (.pending m e₀)) :
    At (movedInflight fs m e.1) c (.inflight m e) := by
  obtain ⟨e, rfl, ho⟩ := e
  rintro d x hd hx
  have hf := h d x hd hx
  rcases hx with rfl | rfl <;> cases d <;>
    simp_all [Perchstation.movedInflight, FileMap.get_del, get_replaceSidecar, get_moveMedia,
      Phase.file, Phase.slot]

theorem movedBack {m : Blob} {e₀ e : OpenEntry c} (h : At fs c (.inflight m e₀)) :
    At (movedBack fs e.1) c (.pending m e) := by
  obtain ⟨e, rfl, ho⟩ := e
  have hret : mediaReturned fs e.clipId = moveMedia fs .inflight .pending e.clipId m := by
    unfold mediaReturned
    rw [h.media (d := .inflight) (by simp)]
    rfl
  rintro d x hd hx
  have hf := h d x hd hx
  rcases hx with rfl | rfl <;> cases d <;>
    simp_all [Perchstation.movedBack, FileMap.get_del, get_replaceSidecar, get_moveMedia,
      Phase.file, Phase.slot]

theorem movedDelivered {m : Blob} {e₀ : OpenEntry c} {e : ClosedEntry c}
    (h : At fs c (.inflight m e₀)) : At (movedDelivered fs e.1) c (.delivered e) := by
  obtain ⟨e, rfl, ho⟩ := e
  rintro d x hd hx
  have hf := h d x hd hx
  rcases hx with rfl | rfl <;> cases d <;>
    simp_all [Perchstation.movedDelivered, FileMap.get_del, FileMap.get_put, get_replaceSidecar,
      Phase.file, Phase.slot]

theorem enqueued {n : String} {m : Blob} {e : OpenEntry c} (h : At fs c .gone) :
    At (enqueued fs n m e.1) c (.pending m e) := by
  obtain ⟨e, rfl, ho⟩ := e
  rintro d x hd hx
  have hf := h d x hd hx
  rcases hx with rfl | rfl <;> cases d <;> simp_all [get_enqueued, Phase.file, Phase.slot]

/-! ### The scans -/

theorem sameClip_of_partSwept (h : At fs c p) {d : Dir} (hd : d ≠ .corrupt) (ht : PartSwept fs t d) :
    At t c p := by
  intro d' x hd' hx
  rw [← h d' x hd' hx]
  rcases ht (.queue d' c x) with hp | ⟨⟨c', hc', hj⟩, hp⟩
  · exact hp
  · obtain ⟨rfl, rfl, rfl⟩ := Path.queue.inj hc'
    rw [hp, h.media hd, Phase.file_mp4_eq_none ((h.sidecar hd).symm.trans hj)]

/-- Polling leaves a clip as it is or updates its record in `delivered/`. -/
theorem pollEffect (h : At fs c p) (ht : PollEffect fs t) :
    At t c p ∨ ∃ e e', p = .delivered e ∧ PollUpdate e.1 e'.1 ∧ At t c (.delivered e') := by
  have hund := h.not_undecodable (d := .delivered) (by simp)
  have hrest : ∀ q : Phase c, t.get (.queue .delivered c .json) = q.file .delivered .json →
      (∀ d x, d ≠ .delivered ∨ x = .mp4 → p.file d x = q.file d x) → At t c q := by
    intro q hq hsame d x hd hx
    by_cases hdel : d = .delivered
    · subst hdel
      rcases hx with rfl | rfl
      · rw [ht.media c hund, ← hsame _ _ (Or.inr rfl), h.media hd]
      · exact hq
    · rw [ht.elsewhere d c x hdel hd, ← hsame _ _ (Or.inl hdel), h d x hd hx]
  have hside := h.sidecar (d := .delivered) (by simp)
  cases p with
  | delivered e =>
    obtain ⟨e', he', hu⟩ := ht.sidecar c e.1 (hside.trans (Phase.slot_self_json .delivered none e.1))
    have hc : e'.clipId = c ∧ e'.outcome.isSome := ⟨hu.clipId.trans e.2.1, hu.outcome ▸ e.2.2⟩
    refine Or.inr ⟨e, ⟨e', hc⟩, rfl, hu,
      hrest _ (he'.trans (Phase.slot_self_json .delivered none e').symm) ?_⟩
    rintro d x hd
    by_cases hdel : d = .delivered
    · obtain rfl := hd.resolve_left (not_not_intro hdel)
      subst hdel
      rfl
    · exact (Phase.slot_of_ne hdel _ _ _).trans (Phase.slot_of_ne hdel _ _ _).symm
  | gone => exact Or.inl (hrest .gone (ht.absent c hside) fun _ _ _ => rfl)
  | pending m e => exact Or.inl (hrest (.pending m e) (ht.absent c hside) fun _ _ _ => rfl)
  | inflight m e => exact Or.inl (hrest (.inflight m e) (ht.absent c hside) fun _ _ _ => rfl)

/-- A policy call that does not name the clip leaves it alone; one that does has evicted it. -/
theorem policyEffect {evictions : List EvictionRecord} (h : At fs c p) (hn : Named fs)
    (ht : PolicyEffect fs t evictions) :
    (At t c p ∧ ∀ r ∈ evictions, r.clipId ≠ c) ∨
      (At t c .gone ∧ Phase.Next p .gone ∧ ∃ r ∈ evictions, r.clipId = c) := by
  by_cases hc : ∃ r ∈ evictions, r.clipId = c
  · right
    obtain ⟨r, hr, rfl⟩ := hc
    obtain ⟨d, s, e, hd, he, hid, hgone⟩ := ht.evicted r hr
    obtain rfl : e.clipId = s := hn _ _ _ he
    rw [hid] at he
    have hdc : d ≠ .corrupt := by rcases hd with rfl | ⟨rfl, -⟩ <;> simp
    rw [h.sidecar hdc] at he
    refine ⟨fun d' x hd' hx => ?_, ?_, r, hr, rfl⟩
    · by_cases hdd : d' = d
      · subst hdd
        exact hgone x hx
      · cases hg : t.get (.queue d' r.clipId x) with
        | none => rfl
        | some b =>
          have hfs := ht.subset _ _ hg
          rw [h d' x hd' hx, Phase.file_eq_none_of_ne he hdd] at hfs
          cases hfs
    · obtain ⟨e₁, he₁, hent, hcase⟩ := Phase.file_json_eq_some he
      obtain rfl := Blob.sidecar.inj he₁
      rcases hcase with ⟨rfl, m, e', rfl⟩ | ⟨rfl, m, e', rfl⟩ | ⟨rfl, e', rfl⟩
      · exact .evict
      · rcases hd with hd | ⟨hd, -⟩ <;> cases hd
      · obtain rfl : e'.1 = e := Option.some.inj hent
        rcases hd with hd | ⟨-, hu⟩
        · cases hd
        · exact .evictUndeliverable hu
  · left
    refine ⟨h.of_sameClip fun d x _ => ht.same _ fun r hr d' x' hp => hc ⟨r, hr, ?_⟩, fun r hr hid =>
      hc ⟨r, hr, hid⟩⟩
    exact (Path.queue.inj hp).2.1.symm

/-- A prune leaves the clip alone, or has removed its record from `delivered/` and says so. -/
theorem pruneEffect {before : DateTime} {pruned : List ClipId} (h : At fs c p) (hn : Named fs)
    (ht : PruneEffect fs t before pruned) :
    (At t c p ∧ c ∉ pruned) ∨ (At t c .gone ∧ Phase.Next p .gone ∧ c ∈ pruned) := by
  by_cases hp : PrunableAt fs before (.queue .delivered c .json)
  · right
    obtain ⟨e, he, hpr⟩ := hp
    have hside := (h.sidecar (d := .delivered) (by simp)).symm.trans he
    refine ⟨fun d x hd hx => ?_, ?_, (ht.mem c).mpr ⟨c, e, he, hpr, hn _ _ _ he⟩⟩
    · by_cases hdel : d = .delivered
      · subst hdel
        exact ht.gone c x hx ⟨e, he, hpr⟩
      · rw [ht.same _ fun s x' hp _ => absurd (Path.queue.inj hp).1 hdel, h d x hd hx,
          Phase.file_eq_none_of_ne hside hdel]
        rfl
    · obtain ⟨e₁, he₁, hent, ⟨⟨⟩, -⟩ | ⟨⟨⟩, -⟩ | ⟨-, e', rfl⟩⟩ := Phase.file_json_eq_some hside
      obtain rfl := Blob.sidecar.inj he₁
      obtain rfl : e'.1 = e := Option.some.inj hent
      exact .prune hpr
  · left
    refine ⟨h.of_sameClip fun d x _ => ht.same _ fun s x' hpath _ => ?_, fun hmem => ?_⟩
    · obtain ⟨rfl, rfl, rfl⟩ := Path.queue.inj hpath
      exact hp
    · obtain ⟨s, e, he, hpr, rfl⟩ := (ht.mem c).mp hmem
      obtain rfl := hn _ _ _ he
      exact hp ⟨e, he, hpr⟩

end At

end Perchstation
