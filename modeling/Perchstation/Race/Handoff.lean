import Perchstation.Lib.Interleaving
import Perchstation.Queue.Policy
import Perchstation.Queue.ScanRules
import Perchstation.Queue.StoreRules

/-!
# The hand-off race — a sweep against the transitions to `inflight/`

One `apply_policy` runs against a `transition_inflight` for each clip of any set of clips, request by
request and in any order.  The sweep only ever removes files of `pending/` and `delivered/`; a
transition only ever touches the files of its own clip.  Whatever the order, each clip is either
handed off whole or reported missing, and neither side fails on a file the other took away.
-/

namespace Perchstation

open Interleaving Resumption QueueStore

/-- The answers without faults in a queue that others change meanwhile: the listing of a directory
may miss entries and may show entries that are gone. -/
def Racy : Env Req Rep Fs
  | fs, .readDir d, v, t => t = fs ∧ ∃ l : List Path, (∀ p ∈ l, p.inDir d = true) ∧ v = .ok l
  | fs, r, v, t => Nominal fs r v t

theorem racy_of_nominal {fs t : Fs} {r : Req} {v : Rep r} (h : Nominal fs r v t) :
    Racy fs r v t := by
  cases r with
  | readDir d =>
    obtain ⟨ht, l, hl, hv⟩ := h
    exact ⟨ht, l, fun p hp => (hl.mem.mp hp).1, hv⟩
  | _ => exact h

/-- Every sidecar decodes, and no clip has media in two of the directories. -/
structure Orderly (fs : Fs) : Prop where
  decodes : ∀ d c, d ≠ .corrupt → ¬Undecodable fs (.sidecar d c)
  oneMedia : ∀ d d' c, d ≠ .corrupt → d' ≠ .corrupt → (fs.get (.media d c)).isSome →
    (fs.get (.media d' c)).isSome → d = d'

namespace HandoffRace

/-! ## What each side does to the files -/

/-- Files outside `inflight/` may be gone, all others are as they were. -/
def OnlyRemoves (fs t : Fs) : Prop :=
  ∀ p, t.get p = fs.get p ∨ t.get p = none ∧ p.inDir .inflight = false

/-- Nothing but files of the clip `c` changes, and the queue stays orderly. -/
structure OnlyTouches (c : ClipId) (fs t : Fs) : Prop where
  others : ∀ d c' x, c' ≠ c → t.get (.queue d c' x) = fs.get (.queue d c' x)
  orderly : Orderly fs → Orderly t

/-- What a transition of the clip `c` relies on: its files of `inflight/` stay as they are, and those
of `pending/` stay or go. -/
structure LeavesOrTakes (c : ClipId) (fs t : Fs) : Prop where
  inflight : ∀ x, t.get (.queue .inflight c x) = fs.get (.queue .inflight c x)
  pending : ∀ x, t.get (.queue .pending c x) = fs.get (.queue .pending c x) ∨
    t.get (.queue .pending c x) = none

theorem OnlyRemoves.refl (fs : Fs) : OnlyRemoves fs fs := fun _ => Or.inl rfl

theorem onlyRemoves_del {fs : Fs} {p : Path} (hp : p.inDir .inflight = false) :
    OnlyRemoves fs (fs.del p) := by
  intro q
  rw [FileMap.get_del]
  split_ifs with hq
  · subst hq
    exact Or.inr ⟨rfl, hp⟩
  · exact Or.inl rfl

theorem OnlyRemoves.orderly {fs t : Fs} (h : OnlyRemoves fs t) (ho : Orderly fs) : Orderly t := by
  have hkept : ∀ {p : Path} {b : Blob}, t.get p = some b → fs.get p = some b := by
    intro p b hb
    rcases h p with heq | ⟨hnone, -⟩
    · rw [← heq, hb]
    · simp [hnone] at hb
  constructor
  · rintro d c hd ⟨data, hb⟩
    exact ho.decodes d c hd ⟨data, hkept hb⟩
  · intro d d' c hd hd' hm hm'
    obtain ⟨b, hb⟩ := Option.isSome_iff_exists.mp hm
    obtain ⟨b', hb'⟩ := Option.isSome_iff_exists.mp hm'
    exact ho.oneMedia d d' c hd hd' (by simp [hkept hb]) (by simp [hkept hb'])

theorem OnlyRemoves.leavesOrTakes {fs t : Fs} (h : OnlyRemoves fs t) (c : ClipId) :
    LeavesOrTakes c fs t := by
  constructor
  · intro x
    rcases h (.queue .inflight c x) with heq | ⟨-, hdir⟩
    · exact heq
    · simp [Path.inDir] at hdir
  · intro x
    exact (h (.queue .pending c x)).imp_right And.left

theorem OnlyTouches.leavesOrTakes {fs t : Fs} {c c' : ClipId} (h : OnlyTouches c' fs t)
    (hne : c ≠ c') : LeavesOrTakes c fs t :=
  ⟨fun x => h.others _ _ x hne, fun x => Or.inl (h.others _ _ x hne)⟩

/-! ## The sweep -/

section Sweep

/-- What a program does whose requests only remove files outside `inflight/`, among any changes that
keep the queue orderly. -/
abbrev SweepUpholds {α : Type} (post : α → Fs → Prop) (p : Act α) (fs : Fs) : Prop :=
  Upholds Racy Orderly (fun _ _ => True) OnlyRemoves post p fs

variable {fs : Fs}

/-- A request of the sweep, whatever the files are by then. -/
theorem sweep_request {α : Type} {post : α → Fs → Prop} {r : Req} {f : Rep r → Act α}
    (hstep : ∀ t v u, Orderly t → Racy t r v u → OnlyRemoves t u ∧ SweepUpholds post (f v) u) :
    SweepUpholds post (Prog.request r >>= f) fs :=
  upholds_request (A := fun _ => True) trivial (fun _ _ _ _ _ _ => trivial)
    fun t v u _ ho hv => hstep t v u ho hv

/-- A sidecar is read, or it vanished. -/
theorem sweep_readSidecar {d : Dir} {c : ClipId} (hd : d ≠ .corrupt) :
    SweepUpholds (fun r _ => (∃ e, r = .ok e) ∨ r = .error (.io (.sidecar d c) .notFound))
      (readSidecar (.sidecar d c)) fs := by
  refine sweep_request fun t v u ho hv => ?_
  obtain ⟨rfl, hv⟩ := hv
  refine ⟨.refl _, ?_⟩
  cases hb : u.get (.sidecar d c) with
  | none =>
    simp only [hb] at hv
    subst hv
    exact upholds_pure (Or.inr rfl)
  | some b =>
    simp only [hb] at hv
    subst hv
    cases b with
    | sidecar e => exact upholds_pure (Or.inl ⟨e, rfl⟩)
    | bytes data => exact (ho.decodes d c hd ⟨data, hb⟩).elim

theorem sweep_readSidecarsLoop {d : Dir} (hd : d ≠ .corrupt) {l : List Path}
    (hl : ∀ p ∈ l, p.inDir d = true) :
    SweepUpholds (fun r _ => ∃ es, r = .ok es) (readSidecarsLoop l) fs := by
  induction l generalizing fs with
  | nil => exact upholds_pure ⟨[], rfl⟩
  | cons p rest ih =>
    have hrest : ∀ {t : Fs}, SweepUpholds (fun r _ => ∃ es, r = .ok es) (readSidecarsLoop rest) t :=
      ih fun q hq => hl q (List.mem_cons_of_mem _ hq)
    unfold readSidecarsLoop
    split_ifs with hx
    · obtain ⟨c, rfl⟩ := inDir_and_hasExt_iff.mp ⟨hl p List.mem_cons_self, hx⟩
      refine (sweep_readSidecar hd).bind fun r t hr => ?_
      rcases hr with ⟨e, rfl⟩ | rfl
      · refine hrest.bind fun r u hr => ?_
        obtain ⟨es, rfl⟩ := hr
        exact upholds_pure ⟨_, rfl⟩
      · exact hrest
    · exact hrest

theorem sweep_readSidecars {d : Dir} (hd : d ≠ .corrupt) :
    SweepUpholds (fun r _ => ∃ es, r = .ok es) (readSidecars d) fs := by
  refine sweep_request fun t v u _ hv => ?_
  obtain ⟨rfl, l, hl, rfl⟩ := hv
  exact ⟨.refl _, sweep_readSidecarsLoop hd hl⟩

theorem sweep_takeCensus : SweepUpholds (fun r _ => ∃ census, r = .ok census) takeCensus fs := by
  refine (sweep_readSidecars (by decide)).bind fun r t hr => ?_
  obtain ⟨inflight, rfl⟩ := hr
  refine (sweep_readSidecars (by decide)).bind fun r t hr => ?_
  obtain ⟨delivered, rfl⟩ := hr
  refine (sweep_readSidecars (by decide)).bind fun r t hr => ?_
  obtain ⟨pending, rfl⟩ := hr
  exact upholds_pure ⟨_, rfl⟩

theorem sweep_removeIfExists {p : Path} (hp : p.inDir .inflight = false) :
    SweepUpholds (fun r _ => r = .ok ()) (removeIfExists p) fs := by
  refine sweep_request fun t v u _ hv => ?_
  have hremoved : (v = .ok () ∨ v = .error .notFound) ∧ OnlyRemoves t u := by
    cases hb : t.get p with
    | none =>
      simp only [Racy, Nominal, hb] at hv
      obtain ⟨rfl, rfl⟩ := hv
      exact ⟨Or.inr rfl, .refl _⟩
    | some b =>
      simp only [Racy, Nominal, hb] at hv
      obtain ⟨rfl, rfl⟩ := hv
      exact ⟨Or.inl rfl, onlyRemoves_del hp⟩
  obtain ⟨rfl | rfl, hguar⟩ := hremoved
  · exact ⟨hguar, upholds_pure rfl⟩
  · exact ⟨hguar, upholds_pure rfl⟩

theorem sweep_evict {e : EvictableEntry} : SweepUpholds (fun r _ => r = .ok ()) (evict e) fs := by
  have hdir : ∀ x, (Path.queue e.dir e.entry.clipId x).inDir .inflight = false := by
    intro x
    unfold EvictableEntry.dir
    cases e.location <;> rfl
  refine (sweep_removeIfExists (hdir .mp4)).bind fun r t hr => ?_
  subst hr
  exact sweep_removeIfExists (hdir .json)

/-- The sweep ends well or finds the queue full. -/
def OkOrFull (o : PolicyOutcome) : Prop :=
  o.result = .ok () ∨ ∃ clips maxClips bytes maxBytes,
    o.result = .error (.queueFull clips maxClips bytes maxBytes)

theorem sweep_evictLoop {policy : QueuePolicy} {incoming : UInt64} {queueFull : InboxError}
    (hfull : ∃ clips maxClips bytes maxBytes, queueFull = .queueFull clips maxClips bytes maxBytes)
    {candidates : List EvictableEntry} {clips : UInt32} {bytes : UInt64}
    {evictions : List EvictionRecord} :
    SweepUpholds (fun o _ => OkOrFull o)
      (evictLoop policy incoming queueFull clips bytes evictions candidates) fs := by
  obtain ⟨n, m, k, l, rfl⟩ := hfull
  induction candidates generalizing clips bytes evictions fs with
  | nil =>
    unfold evictLoop
    split_ifs
    · exact upholds_pure (Or.inr ⟨n, m, k, l, rfl⟩)
    · exact upholds_pure (Or.inl rfl)
  | cons e rest ih =>
    unfold evictLoop
    split_ifs
    · refine sweep_evict.bind fun r t hr => ?_
      subst hr
      exact ih
    · exact upholds_pure (Or.inl rfl)

theorem sweep_enforce {policy : QueuePolicy} {incoming : UInt64} {census : Census} {clips : UInt32}
    {bytes : UInt64} :
    SweepUpholds (fun o _ => OkOrFull o) (enforce policy incoming census clips bytes) fs := by
  simp only [enforce]
  split
  · split
    · exact upholds_pure (Or.inr ⟨_, _, _, _, rfl⟩)
    · split
      · exact upholds_pure (Or.inr ⟨_, _, _, _, rfl⟩)
      · exact sweep_evictLoop ⟨_, _, _, _, rfl⟩
  · exact upholds_pure (Or.inl rfl)

theorem sweep_applyPolicy {profile : Profile} {policy : QueuePolicy} {incoming : UInt64} :
    SweepUpholds (fun o _ => OkOrFull o) (applyPolicy profile policy incoming) fs := by
  refine sweep_takeCensus.bind fun r t hr => ?_
  obtain ⟨census, rfl⟩ := hr
  dsimp only
  cases censusTotals profile census with
  | none =>
    intro _ _ _ v
    cases v
  | some totals => exact sweep_enforce

end Sweep

/-! ## A transition -/

section Transition

variable {fs t u : Fs} {c : ClipId}

theorem OnlyTouches.refl (c : ClipId) (fs : Fs) : OnlyTouches c fs fs := ⟨fun _ _ _ _ => rfl, id⟩

/-- A sidecar of the clip `c`, or a temporary file of one, is written. -/
theorem onlyTouches_put {d : Dir} {x : Ext} {e : ClipQueueEntry} (hx : x ≠ .mp4) :
    OnlyTouches c fs (fs.put (.queue d c x) (.sidecar e)) := by
  constructor
  · intro d' c' x' hc
    rw [FileMap.get_put, if_neg (by simp [hc])]
  · intro ho
    constructor
    · rintro d' c' hd ⟨data, hb⟩
      rw [FileMap.get_put] at hb
      split_ifs at hb
      · cases hb
      · exact ho.decodes d' c' hd ⟨data, hb⟩
    · intro d₁ d₂ c' h₁ h₂ hm₁ hm₂
      rw [FileMap.get_put, if_neg (by simp [Ne.symm hx])] at hm₁ hm₂
      exact ho.oneMedia d₁ d₂ c' h₁ h₂ hm₁ hm₂

/-- A file of the clip `c` is removed. -/
theorem onlyTouches_del {d : Dir} {x : Ext} : OnlyTouches c fs (fs.del (.queue d c x)) := by
  constructor
  · intro d' c' x' hc
    rw [FileMap.get_del, if_neg (by simp [hc])]
  · intro ho
    constructor
    · rintro d' c' hd ⟨data, hb⟩
      rw [FileMap.get_del] at hb
      split_ifs at hb
      exact ho.decodes d' c' hd ⟨data, hb⟩
    · intro d₁ d₂ c' h₁ h₂ hm₁ hm₂
      rw [FileMap.get_del] at hm₁ hm₂
      split_ifs at hm₁ hm₂
      · simp at hm₁
      · simp at hm₁
      · simp at hm₂
      · exact ho.oneMedia d₁ d₂ c' h₁ h₂ hm₁ hm₂

theorem OnlyTouches.trans (h : OnlyTouches c fs t) (h' : OnlyTouches c t u) :
    OnlyTouches c fs u :=
  ⟨fun d c' x hc => (h'.others d c' x hc).trans (h.others d c' x hc), h'.orderly ∘ h.orderly⟩

/-- The media of the clip `c` moves. -/
theorem onlyTouches_moveMedia {b : Blob} (hb : fs.get (.media .pending c) = some b) :
    OnlyTouches c fs ((fs.del (.media .pending c)).put (.media .inflight c) b) := by
  constructor
  · intro d' c' x' hc
    rw [FileMap.get_put, if_neg (by simp [hc]), FileMap.get_del, if_neg (by simp [hc])]
  · intro ho
    -- the clip's only media is the one that moves
    have hmedia : ∀ d c', d ≠ .corrupt →
        (((fs.del (.media .pending c)).put (.media .inflight c) b).get (.media d c')).isSome →
        c' = c ∧ d = .inflight ∨ c' ≠ c ∧ (fs.get (.media d c')).isSome := by
      intro d c' hd hm
      rw [FileMap.get_put, FileMap.get_del] at hm
      by_cases hc : c' = c
      · subst hc
        refine Or.inl ⟨rfl, ?_⟩
        by_contra hne
        rw [if_neg (by simp [hne])] at hm
        split_ifs at hm with hp
        · simp at hm
        · have hpend := ho.oneMedia d .pending c' hd (by decide) hm (by simp [hb])
          exact hp (by rw [hpend])
      · rw [if_neg (by simp [hc]), if_neg (by simp [hc])] at hm
        exact Or.inr ⟨hc, hm⟩
    constructor
    · rintro d c' hd ⟨data, hdata⟩
      rw [FileMap.get_put, if_neg (by simp), FileMap.get_del, if_neg (by simp)] at hdata
      exact ho.decodes d c' hd ⟨data, hdata⟩
    · intro d d' c' hd hd' hm hm'
      rcases hmedia d c' hd hm with ⟨hc, rfl⟩ | ⟨hc, hold⟩
      · rcases hmedia d' c' hd' hm' with ⟨-, rfl⟩ | ⟨hc', -⟩
        · rfl
        · exact (hc' hc).elim
      · rcases hmedia d' c' hd' hm' with ⟨hc', -⟩ | ⟨-, hold'⟩
        · exact (hc hc').elim
        · exact ho.oneMedia d d' c' hd hd' hold hold'

/-- The files of `pending/` the clip had at first are there, or gone. -/
def StillOrGone (fs₀ : Fs) (c : ClipId) (t : Fs) : Prop :=
  ∀ x, t.get (.queue .pending c x) = fs₀.get (.queue .pending c x) ∨
    t.get (.queue .pending c x) = none

/-- The media is in `inflight/`, and nowhere else. -/
structure MediaMoved (fs₀ : Fs) (c : ClipId) (t : Fs) : Prop where
  still : StillOrGone fs₀ c t
  source : (fs₀.get (.media .pending c)).isSome
  arrived : t.get (.media .inflight c) = fs₀.get (.media .pending c)
  left : t.get (.media .pending c) = none

/-- What a transition of `e` ends with: the pair is in `inflight/` and gone from `pending/`, or the
media was missing and nothing is in `inflight/`. -/
def Settled (fs₀ : Fs) (e : ClipQueueEntry) (at_ : DateTime)
    (r : Except QueueError ClipQueueEntry) (t : Fs) : Prop :=
  (r = .ok (startAttempt e at_) ∧ MediaMoved fs₀ e.clipId t ∧
    t.get (.sidecar .inflight e.clipId) = some (.sidecar (startAttempt e at_)) ∧
    t.get (.sidecar .pending e.clipId) = none) ∨
  r = .error (.missingMedia e.clipId) ∧ ∀ x, t.get (.queue .inflight e.clipId x) = none

theorem StillOrGone.after {fs₀ : Fs} (h : StillOrGone fs₀ c t) (hr : LeavesOrTakes c t u) :
    StillOrGone fs₀ c u := by
  intro x
  rcases hr.pending x with heq | hnone
  · rw [heq]
    exact h x
  · exact Or.inr hnone

theorem MediaMoved.after {fs₀ : Fs} (h : MediaMoved fs₀ c t) (hr : LeavesOrTakes c t u) :
    MediaMoved fs₀ c u where
  still := h.still.after hr
  source := h.source
  arrived := (hr.inflight .mp4).trans h.arrived
  left := by
    rcases hr.pending .mp4 with heq | hnone
    · rw [heq, h.left]
    · exact hnone

/-- Writing a sidecar of `inflight/` leaves the moved media as it is. -/
theorem MediaMoved.put {fs₀ : Fs} {x : Ext} {b : Blob} (h : MediaMoved fs₀ c t) (hx : x ≠ .mp4) :
    MediaMoved fs₀ c (t.put (.queue .inflight c x) b) where
  still y := by
    rw [FileMap.get_put, if_neg (by simp)]
    exact h.still y
  source := h.source
  arrived := by
    rw [FileMap.get_put, if_neg (by simp [Ne.symm hx])]
    exact h.arrived
  left := by
    rw [FileMap.get_put, if_neg (by simp)]
    exact h.left

theorem MediaMoved.del {fs₀ : Fs} {d : Dir} {x : Ext} (h : MediaMoved fs₀ c t) (hx : x ≠ .mp4) :
    MediaMoved fs₀ c (t.del (.queue d c x)) where
  still y := by
    rw [FileMap.get_del]
    split_ifs
    · exact Or.inr rfl
    · exact h.still y
  source := h.source
  arrived := by
    rw [FileMap.get_del, if_neg (by simp [Ne.symm hx])]
    exact h.arrived
  left := by
    rw [FileMap.get_del, if_neg (by simp [Ne.symm hx])]
    exact h.left

theorem Settled.after {fs₀ : Fs} {e : ClipQueueEntry} {at_ : DateTime}
    {r : Except QueueError ClipQueueEntry} (h : Settled fs₀ e at_ r t)
    (hr : LeavesOrTakes e.clipId t u) : Settled fs₀ e at_ r u := by
  rcases h with ⟨rfl, hmoved, his, hps⟩ | ⟨rfl, hnone⟩
  · refine Or.inl ⟨rfl, hmoved.after hr, (hr.inflight .json).trans his, ?_⟩
    rcases hr.pending .json with heq | hgone
    · rw [heq, hps]
    · exact hgone
  · exact Or.inr ⟨rfl, fun x => (hr.inflight x).trans (hnone x)⟩

/-- What the transition of a clip does among sweeps and transitions of other clips. -/
abbrev MoveUpholds {α : Type} (c : ClipId) (post : α → Fs → Prop) (p : Act α) (fs : Fs) : Prop :=
  Upholds Racy Orderly (LeavesOrTakes c) (OnlyTouches c) post p fs

theorem move_request {α : Type} {post : α → Fs → Prop} {A : Fs → Prop} {r : Req}
    {f : Rep r → Act α} (hA : A fs) (hstable : ∀ s t, A s → LeavesOrTakes c s t → A t)
    (hstep : ∀ t v u, A t → Racy t r v u → OnlyTouches c t u ∧ MoveUpholds c post (f v) u) :
    MoveUpholds c post (Prog.request r >>= f) fs :=
  upholds_request hA (fun s t hr _ _ ha => hstable s t ha hr)
    fun t v u ha _ hv => hstep t v u ha hv

/-- The sidecar is written beside the media, whatever becomes of `pending/` meanwhile. -/
theorem move_writeSidecarAtomic {fs₀ : Fs} {e : ClipQueueEntry} (h : MediaMoved fs₀ c fs) :
    MoveUpholds c (fun r t => r = .ok () ∧ MediaMoved fs₀ c t ∧
      t.get (.sidecar .inflight c) = some (.sidecar e))
      (writeSidecarAtomic (.sidecar .inflight c) e) fs := by
  refine move_request h (fun _ _ ha hr => ha.after hr) fun t v u ha hv => ?_
  obtain ⟨rfl, rfl⟩ := hv
  refine ⟨onlyTouches_put (by decide), ?_⟩
  refine move_request
    (A := fun t => MediaMoved fs₀ c t ∧ t.get (.queue .inflight c .jsonTmp) = some (.sidecar e))
    ⟨ha.put (by decide), by simp [FileMap.get_put, Path.withExtension]⟩
    (fun s t ha hr => ⟨ha.1.after hr, (hr.inflight .jsonTmp).trans ha.2⟩)
    fun t v u ha hv => ?_
  simp only [Racy, Nominal, Path.withExtension, ha.2] at hv
  obtain ⟨rfl, rfl⟩ := hv
  refine ⟨onlyTouches_del.trans (onlyTouches_put (by decide)), upholds_pure ⟨rfl, ?_, ?_⟩⟩
  · exact (ha.1.del (by decide)).put (by decide)
  · simp [FileMap.get_put]

theorem move_removeIfExists {fs₀ : Fs} {e : ClipQueueEntry}
    (h : MediaMoved fs₀ c fs ∧ fs.get (.sidecar .inflight c) = some (.sidecar e)) :
    MoveUpholds c (fun r t => r = .ok () ∧ MediaMoved fs₀ c t ∧
      t.get (.sidecar .inflight c) = some (.sidecar e) ∧ t.get (.sidecar .pending c) = none)
      (removeIfExists (.sidecar .pending c)) fs := by
  refine move_request
    (A := fun t => MediaMoved fs₀ c t ∧ t.get (.sidecar .inflight c) = some (.sidecar e))
    h (fun s t ha hr => ⟨ha.1.after hr, (hr.inflight .json).trans ha.2⟩) fun t v u ha hv => ?_
  cases hb : t.get (.sidecar .pending c) with
  | none =>
    simp only [Racy, Nominal, hb] at hv
    obtain ⟨rfl, rfl⟩ := hv
    exact ⟨.refl _ _, upholds_pure ⟨rfl, ha.1, ha.2, hb⟩⟩
  | some b =>
    simp only [Racy, Nominal, hb] at hv
    obtain ⟨rfl, rfl⟩ := hv
    refine ⟨onlyTouches_del, upholds_pure ⟨rfl, ha.1.del (by decide), ?_, ?_⟩⟩
    · rw [FileMap.get_del, if_neg (by simp)]
      exact ha.2
    · simp [FileMap.get_del]

theorem move_transitionInflight {fs₀ : Fs} {e : ClipQueueEntry} {at_ : DateTime}
    (hstill : StillOrGone fs₀ e.clipId fs)
    (hnone : ∀ x, fs.get (.queue .inflight e.clipId x) = none) :
    MoveUpholds e.clipId (Settled fs₀ e at_) (transitionInflight e at_) fs := by
  refine move_request
    (A := fun t => StillOrGone fs₀ e.clipId t ∧ ∀ x, t.get (.queue .inflight e.clipId x) = none)
    ⟨hstill, hnone⟩ (fun s t ha hr => ⟨ha.1.after hr, fun x => (hr.inflight x).trans (ha.2 x)⟩)
    fun t v u ha hv => ?_
  cases hb : t.get (.media .pending e.clipId) with
  | none =>
    simp only [Racy, Nominal, hb] at hv
    obtain ⟨rfl, rfl⟩ := hv
    exact ⟨.refl _ _, upholds_pure (Or.inr ⟨rfl, ha.2⟩)⟩
  | some b =>
    simp only [Racy, Nominal, hb] at hv
    obtain ⟨rfl, rfl⟩ := hv
    have hsource : fs₀.get (.media .pending e.clipId) = some b := by
      rcases ha.1 .mp4 with heq | hgone
      · rw [← heq, hb]
      · rw [hgone] at hb
        cases hb
    have hmoved : MediaMoved fs₀ e.clipId
        ((t.del (.media .pending e.clipId)).put (.media .inflight e.clipId) b) := by
      refine ⟨fun x => ?_, by simp [hsource], by simp [FileMap.get_put, hsource], ?_⟩
      · rw [FileMap.get_put, if_neg (by simp), FileMap.get_del]
        split_ifs
        · exact Or.inr rfl
        · exact ha.1 x
      · rw [FileMap.get_put, if_neg (by simp), FileMap.get_del, if_pos rfl]
    refine ⟨onlyTouches_moveMedia hb, (move_writeSidecarAtomic hmoved).bind fun r s hr => ?_⟩
    obtain ⟨rfl, hs⟩ := hr
    refine (move_removeIfExists hs).bind fun r w hr => ?_
    obtain ⟨rfl, hw, his, hps⟩ := hr
    exact upholds_pure (Or.inl ⟨rfl, hw, his, hps⟩)

end Transition

/-! ## The race -/

/-- The requests of a transition. -/
def MovesFiles : Req → Prop
  | .rename _ _ | .write _ _ | .removeFile _ => True
  | _ => False

theorem exists_racy {fs : Fs} {r : Req} (h : MovesFiles r) : ∃ v u, Racy fs r v u := by
  obtain ⟨v, u, hv⟩ := exists_nominal fs (r := r) (by rintro p rfl; exact h) (by rintro rfl; exact h)
  exact ⟨v, u, racy_of_nominal hv⟩

theorem movesFiles_transitionInflight (e : ClipQueueEntry) (at_ : DateTime) :
    Within MovesFiles (transitionInflight e at_) := by
  have hwrite : Within MovesFiles (writeSidecarAtomic (.sidecar .inflight e.clipId)
      (startAttempt e at_)) := by
    refine ⟨trivial, fun v => ?_⟩
    rcases v with _ | _
    · exact within_pure _
    · refine ⟨trivial, fun v => ?_⟩
      rcases v with _ | _ <;> exact within_pure _
  have hremove : Within MovesFiles (removeIfExists (.sidecar .pending e.clipId)) := by
    refine ⟨trivial, fun v => ?_⟩
    rcases v with (_ | _ | _) | _ <;> exact within_pure _
  refine ⟨trivial, fun v => ?_⟩
  rcases v with (_ | _ | _) | _
  · exact within_pure _
  · exact within_pure _
  · exact within_pure _
  · refine hwrite.bind fun r => ?_
    rcases r with _ | _
    · exact ⟨trivial, fun _ => within_pure _⟩
    · refine hremove.bind fun r => ?_
      rcases r with _ | _ <;> exact within_pure _

/-- What each side returns: the sweep (`none`), and the transitions. -/
@[reducible] def Result {ι : Type} : Option ι → Type
  | none => PolicyOutcome
  | some _ => Except QueueError ClipQueueEntry

section Race

variable {ι : Type}

/-- Both sides before their first requests. -/
def sides (profile : Profile) (policy : QueuePolicy) (incoming : UInt64)
    (entry : ι → ClipQueueEntry) (at_ : ι → DateTime) : ∀ i : Option ι, Act (Result i)
  | none => applyPolicy profile policy incoming
  | some i => transitionInflight (entry i) (at_ i)

/-- One request of one side. -/
abbrev RaceStep [DecidableEq ι] (a : Pool Req Rep (Result (ι := ι)) Fs) (m : Move (Option ι) Rep)
    (b : Pool Req Rep (Result (ι := ι)) Fs) : Prop :=
  PoolStep (fun _ => Racy) (fun _ _ _ => False) a m b

variable (fs₀ : Fs) (entry : ι → ClipQueueEntry) (at_ : ι → DateTime)

def Rely : Option ι → Fs → Fs → Prop
  | none => fun _ _ => True
  | some i => LeavesOrTakes (entry i).clipId

def Guar : Option ι → Fs → Fs → Prop
  | none => OnlyRemoves
  | some i => OnlyTouches (entry i).clipId

def Post : ∀ i : Option ι, Result i → Fs → Prop
  | none => fun o _ => OkOrFull o
  | some i => Settled fs₀ (entry i) (at_ i)

variable {fs₀ entry at_}

/-- What the sweep and the transitions of different clips do suits each of them. -/
theorem agreed [DecidableEq ι] (hinj : Function.Injective fun i => (entry i).clipId) :
    Agreed (fun _ : Option ι => Racy) (fun _ _ _ => False) Orderly (Rely entry) (Guar entry)
      (Post fs₀ entry at_) where
  keeps i fs t h ho := by
    cases i with
    | none => exact OnlyRemoves.orderly h ho
    | some i => exact OnlyTouches.orderly h ho
  compatible i j fs t hij h _ _ := by
    cases i with
    | none => trivial
    | some i =>
      cases j with
      | none => exact OnlyRemoves.leavesOrTakes h _
      | some j => exact OnlyTouches.leavesOrTakes h fun hc => hij (congrArg some (hinj hc))
  stable i r fs t h _ _ hr := by
    cases i with
    | none => exact hr
    | some i => exact Settled.after hr h
  launched _ _ _ _ hl := hl.elim

end Race

end HandoffRace

open HandoffRace

/-- One sweep against the hand-offs of any set of clips that are not in `inflight/` yet: in every
state, a side that is done has ended as it should, no clip has media in two directories, and every
hand-off can go on to its end. -/
theorem eviction_handoff_race {ι : Type} [DecidableEq ι] {fs₀ : Fs} {entry : ι → ClipQueueEntry}
    {at_ : ι → DateTime} {profile : Profile} {policy : QueuePolicy} {incoming : UInt64}
    {tr : List (Move (Option ι) Rep × Pool Req Rep (Result (ι := ι)) Fs)}
    {b : Pool Req Rep (Result (ι := ι)) Fs} (ho : Orderly fs₀)
    (hinj : Function.Injective fun i => (entry i).clipId)
    (hnone : ∀ i x, fs₀.get (.queue .inflight (entry i).clipId x) = none)
    (hrun : Exec RaceStep ⟨sides profile policy incoming entry at_, fs₀⟩ tr b) :
    (∀ i r, b.prog (some i) = .pure r → Settled fs₀ (entry i) (at_ i) r b.state) ∧
    (∀ o, b.prog none = .pure o → OkOrFull o) ∧
    (∀ d d' c, d ≠ .corrupt → d' ≠ .corrupt → (b.state.get (.media d c)).isSome →
      (b.state.get (.media d' c)).isSome → d = d') ∧
    ∀ i, ∃ tr' b' r, Exec RaceStep b tr' b' ∧ b'.prog (some i) = .pure r := by
  have hsound : Sound (fun _ => Racy) Orderly (Rely entry) (Guar entry) (Post fs₀ entry at_) b := by
    refine (agreed hinj).sound_exec hrun ⟨ho, fun i => ?_⟩
    cases i with
    | none => exact sweep_applyPolicy
    | some i => exact move_transitionInflight (fun x => Or.inl rfl) (hnone i)
  refine ⟨fun i r hr => hsound.result hr, fun o hr => hsound.result hr,
    hsound.invariant.oneMedia, fun i => ?_⟩
  have hleft : Within MovesFiles (b.prog (some i)) :=
    within_of_exec hrun (fun _ _ hl => hl.elim) (movesFiles_transitionInflight _ _)
  have hend : ∃ r t, Runs Racy (b.prog (some i)) b.state r t :=
    exists_runs_of_within (fun _ _ hr => exists_racy hr) hleft b.state
  obtain ⟨r, t, hend⟩ := hend
  obtain ⟨tr', hexec⟩ := RunsTo.exec (fun _ => Racy) (fun _ _ _ => False) (some i) b.prog
    (runsTo_pure hend)
  exact ⟨tr', _, r, hexec, Function.update_self _ _ _⟩

namespace HandoffRace

def clip : ClipQueueEntry :=
  .new "c1" (.ofSecs 0 DateTime.epoch_inRange) (.ofSecs 0 DateTime.epoch_inRange) 1

def queued : Fs :=
  (FileMap.empty.put (.media .pending "c1") (.bytes [0])).put (.sidecar .pending "c1")
    (.sidecar clip)

theorem orderly_queued : Orderly queued := by
  constructor
  · rintro d c - ⟨data, hb⟩
    simp only [queued, FileMap.get_put] at hb
    split_ifs at hb <;> simp_all
  · intro d d' c hd hd' hm hm'
    simp only [queued, FileMap.get_put] at hm hm'
    split_ifs at hm hm' <;> simp_all

/-- The queue after the hand-off. -/
def handed : Fs := movedInflight queued (.bytes [0]) (startAttempt clip clip.capturedAt)

theorem runsTo_ask {α : Type} {env : Env Req Rep Fs} {fs t u : Fs} {q : Act α} (r : Req) (v : Rep r)
    {k : Rep r → Act α} (hv : env fs r v u) (h : RunsTo env (k v) u q t) :
    RunsTo env (.ask r k) fs q t := .ask hv h

/-- The sweep sees the clip in `pending/`, and finds it gone when it evicts it. -/
theorem runsTo_sweep : ∃ q, RunsTo Racy (applyPolicy .release ⟨1, 1, .dropOldestUndelivered⟩ 1)
      queued q queued ∧
    RunsTo Racy q handed (.pure ⟨[⟨"c1", .bothExceeded, 0, 0⟩], .ok ()⟩) handed := by
  refine ⟨_, runsTo_ask (.readDir .inflight) (.ok []) ⟨rfl, [], by simp, rfl⟩ <|
    runsTo_ask (.readDir .delivered) (.ok []) ⟨rfl, [], by simp, rfl⟩ <|
    runsTo_ask (.readDir .pending) (.ok [.sidecar .pending "c1"])
      ⟨rfl, [.sidecar .pending "c1"], by simp [Path.inDir], rfl⟩ <|
    runsTo_ask (.read (.sidecar .pending "c1")) (.ok (.sidecar clip)) ⟨rfl, rfl⟩ <|
    .refl _ _, ?_⟩
  exact runsTo_ask (.removeFile (.media .pending "c1")) (.error .notFound) ⟨rfl, rfl⟩ <|
    runsTo_ask (.removeFile (.sidecar .pending "c1")) (.error .notFound) ⟨rfl, rfl⟩ <|
    .refl _ _

end HandoffRace

/-- A hand-off that overtakes the eviction of its clip. -/
theorem eviction_handoff_race_overtaken :
    ∃ (tr : List (Move (Option Unit) Rep × Pool Req Rep (Result (ι := Unit)) Fs))
      (b : Pool Req Rep (Result (ι := Unit)) Fs),
      Exec RaceStep ⟨sides .release ⟨1, 1, .dropOldestUndelivered⟩ 1 (fun _ => clip)
        fun _ => clip.capturedAt, queued⟩ tr b ∧
      b.prog none = .pure ⟨[⟨"c1", .bothExceeded, 0, 0⟩], .ok ()⟩ ∧
      Settled queued clip clip.capturedAt (.ok (startAttempt clip clip.capturedAt)) b.state := by
  obtain ⟨q, h1, h2⟩ := runsTo_sweep
  have hmove : RunsTo Racy (transitionInflight clip clip.capturedAt) queued
      (.pure (.ok (startAttempt clip clip.capturedAt))) handed := by
    refine runsTo_pure (Runs.map id (fun _ _ _ _ => racy_of_nominal) ?_)
    exact runs_transitionInflight.mpr (Or.inr ⟨.bytes [0], rfl, rfl, rfl⟩)
  obtain ⟨tr₁, e1⟩ := RunsTo.exec (fun _ => Racy) (fun _ _ _ => False) none
    (sides .release ⟨1, 1, .dropOldestUndelivered⟩ 1 (fun _ : Unit => clip)
      fun _ => clip.capturedAt) h1
  obtain ⟨tr₂, e2⟩ := RunsTo.exec (fun _ => Racy) (fun _ _ _ => False) (some ())
    (Function.update (sides .release ⟨1, 1, .dropOldestUndelivered⟩ 1 (fun _ : Unit => clip)
      fun _ => clip.capturedAt) none q) hmove
  obtain ⟨tr₃, e3⟩ := RunsTo.exec (fun _ => Racy) (fun _ _ _ => False) none
    (Function.update (Function.update (sides .release ⟨1, 1, .dropOldestUndelivered⟩ 1
      (fun _ : Unit => clip) fun _ => clip.capturedAt) none q) (some ())
      (.pure (.ok (startAttempt clip clip.capturedAt)))) h2
  have hrun := (e1.append e2).append e3
  refine ⟨_, _, hrun, rfl, ?_⟩
  have hall := eviction_handoff_race orderly_queued (fun _ _ _ => rfl) (fun _ x => rfl) hrun
  exact hall.1 () _ rfl

end Perchstation
