import Perchstation.Observability.StatusRules
import Perchstation.Race.Handoff

/-!
# A snapshot beside a running service

The system of a `status` call and of any number of operations on the queue, each one request at a
time.  A listing is no moment in time: it brings its entries batch by batch, and what it has brought
may be gone by the time the snapshot looks at it.
-/

namespace Perchstation

open Interleaving Resumption QueueStore

/-- The files; for each directory the entries that a listing has brought and not yielded yet; and those
that it has brought and that have stayed since. -/
structure Listed where
  fs : Fs
  batch : Dir → List Path
  stayed : Dir → List Path

/-- The answers without faults.  A batch brings entries that the directory holds at that moment, in
any order and perhaps not all of them, and none again that it has brought and that has stayed. -/
def Scanning : Env ScanReq ScanRep Listed
  | s, .queue r, v, t => Nominal s.fs r v t.fs ∧ t.batch = s.batch ∧
      t.stayed = fun d => (s.stayed d).filter fun p => (t.fs.get p).isSome
  | s, .openDir d, v, t => t.fs = s.fs ∧ t.batch = Function.update s.batch d [] ∧
      t.stayed = Function.update s.stayed d [] ∧
      ((∃ n, v = .ok n) ∨ v = .error .notFound ∧ ∀ p, p.inDir d = true → s.fs.get p = none)
  | s, .nextEntry d, v, t => t.fs = s.fs ∧
      ((s.batch d = [] ∧ v = .ok none ∧ t.batch = s.batch ∧ t.stayed = s.stayed) ∨
        ∃ p rest, v = .ok (some p) ∧ t.batch = Function.update s.batch d rest ∧
          (s.batch d = p :: rest ∧ t.stayed = s.stayed ∨
            s.batch d = [] ∧ (p :: rest).Nodup ∧
              (∀ q ∈ p :: rest, q.inDir d = true ∧ s.fs.get q ≠ none ∧ q ∉ s.stayed d) ∧
              t.stayed = Function.update s.stayed d (p :: rest ++ s.stayed d)))

/-- An operation on the queue lists no directory entry by entry. -/
def AtWork : Env ScanReq ScanRep Listed
  | s, .queue r, v, t => Scanning s (.queue r) v t
  | _, .openDir _, _, _ => False
  | _, .nextEntry _, _, _ => False

/-- The operations on the queue: what boot, the capture, the delivery runner and the poller call. -/
inductive QueueOp
  | enqueue (seq : UInt32) (clipSource : String) (clipMeta : ClipMeta)
  | transitionInflight (entry : ClipQueueEntry) (now : DateTime)
  | transitionBackToPending (entry : ClipQueueEntry)
  | transitionDelivered (entry : ClipQueueEntry)
  | updateDeliveredSidecar (entry : ClipQueueEntry)
  | pickOldestPending (now : DateTime)
  | quarantineOrphan (clipId : ClipId)
  | applyPolicy (profile : Profile) (policy : QueuePolicy) (incoming : UInt64)
  | pruneDelivered (before : DateTime)
  | reconcileInflight

def QueueOp.prog : QueueOp → Act Unit
  | .enqueue seq clipSource clipMeta => do
    let _ ← QueueStore.enqueue seq (.source clipSource) clipMeta
    return ()
  | .transitionInflight entry now => do
    let _ ← QueueStore.transitionInflight entry now
    return ()
  | .transitionBackToPending entry => do
    let _ ← QueueStore.transitionBackToPending entry
    return ()
  | .transitionDelivered entry => do
    let _ ← QueueStore.transitionDelivered entry
    return ()
  | .updateDeliveredSidecar entry => do
    let _ ← QueueStore.updateDeliveredSidecar entry
    return ()
  | .pickOldestPending now => do
    let _ ← QueueStore.pickOldestPending now
    return ()
  | .quarantineOrphan clipId => do
    let _ ← QueueStore.quarantineOrphan clipId
    return ()
  | .applyPolicy profile policy incoming => do
    let _ ← QueueStore.applyPolicy profile policy incoming
    return ()
  | .pruneDelivered before => do
    let _ ← QueueStore.pruneDelivered before
    return ()
  | .reconcileInflight => do
    let _ ← QueueStore.reconcileInflight
    return ()

inductive Actor
  | status
  | operation (i : ℕ)
  deriving DecidableEq

namespace Actor

/-- What an actor's program returns. -/
@[reducible] def Returns : Actor → Type
  | .status => Option (Except StatusError StatusSnapshot)
  | .operation _ => Unit

def Answers : Actor → Env ScanReq ScanRep Listed
  | .status => Scanning
  | .operation _ => AtWork

/-- Any operation may be started at any time; the status call is made once. -/
def Launches : ∀ i : Actor, ScanAct (Returns i) → Listed → Prop
  | .status => fun _ _ => False
  | .operation _ => fun p _ => ∃ op : QueueOp, p = onQueue op.prog

abbrev System : Type := Pool ScanReq ScanRep Returns Listed

abbrev Trace : Type := List (Move Actor ScanRep × System)

/-- One request of one actor, or the start of an operation. -/
abbrev Step (a : System) (m : Move Actor ScanRep) (b : System) : Prop :=
  PoolStep Answers Launches a m b

end Actor

open Actor (System Trace)

section System

variable {a b c u : System} {tr tr' : Trace} {d : Dir} {p : Path}

/-- The status call has not returned yet. -/
def Calling (a : System) : Prop := ∀ r, a.prog .status ≠ .pure r

/-- The files were so at some moment of the run during the status call. -/
def During (a : System) (tr : Trace) (P : Fs → Prop) : Prop :=
  ∃ tr₁ tr₂ c, tr = tr₁ ++ tr₂ ∧ Exec Actor.Step a tr₁ c ∧ Calling c ∧ P c.state.fs

theorem During.append {P : Fs → Prop} (h : During a tr P) (tr' : Trace) :
    During a (tr ++ tr') P := by
  obtain ⟨tr₁, tr₂, c, rfl, hrest⟩ := h
  exact ⟨tr₁, tr₂ ++ tr', c, List.append_assoc _ _ _, hrest⟩

/-- The state before the call returns is one of its moments. -/
theorem during_last {P : Fs → Prop} (hrun : Exec Actor.Step a tr b) (hb : Calling b)
    (h : P b.state.fs) : During a tr P :=
  ⟨tr, [], b, (List.append_nil tr).symm, hrun, hb, h⟩

/-- The snapshot's look at a file finds it, and a sidecar that it can decode. -/
def Finds (fs : Fs) : ScanReq → Prop
  | .queue (.metadata p) => fs.get p ≠ none
  | .queue (.read p) => ∃ e, fs.get p = some (.sidecar e)
  | _ => True

section Looks

variable {s t : Listed}

theorem Scanning.metadata {v : Except IoError UInt64}
    (h : Scanning s (.queue (.metadata p)) v t) :
    (s.fs.get p = none ∧ v = .error .notFound) ∨
      ∃ b n, s.fs.get p = some b ∧ b.HasLen n ∧ v = .ok n := by
  obtain ⟨⟨-, hv⟩, -⟩ := h
  cases hb : s.fs.get p with
  | none =>
    rw [hb] at hv
    exact Or.inl ⟨rfl, hv⟩
  | some b =>
    rw [hb] at hv
    obtain ⟨n, hn, rfl⟩ := hv
    exact Or.inr ⟨b, n, rfl, hn, rfl⟩

theorem Scanning.read {v : Except IoError Blob} (h : Scanning s (.queue (.read p)) v t) :
    (s.fs.get p = none ∧ v = .error .notFound) ∨ ∃ b, s.fs.get p = some b ∧ v = .ok b := by
  obtain ⟨⟨-, hv⟩, -⟩ := h
  cases hb : s.fs.get p with
  | none =>
    rw [hb] at hv
    exact Or.inl ⟨rfl, hv⟩
  | some b =>
    rw [hb] at hv
    exact Or.inr ⟨b, rfl, hv⟩

theorem Scanning.found_iff {r : ScanReq} {v : ScanRep r} (h : Scanning s r v t) :
    Found r v ↔ Finds s.fs r := by
  cases r with
  | queue r =>
    cases r with
    | metadata p =>
      rcases h.metadata with ⟨hnone, rfl⟩ | ⟨b, n, hb, -, rfl⟩
      · simp [Found, Finds, hnone]
      · simp [Found, Finds, hb]
    | read p =>
      rcases h.read with ⟨hnone, rfl⟩ | ⟨b, hb, rfl⟩
      · simp [Found, Finds, hnone]
      · simp [Found, Finds, hb]
    | _ => exact Iff.rfl
  | openDir d => exact Iff.rfl
  | nextEntry d => exact Iff.rfl

end Looks

/-- What an answer yields comes from a batch of the listing. -/
theorem Scanning.yields {s t : Listed} {v : ScanRep (.nextEntry d)}
    (h : Scanning s (.nextEntry d) v t) (hp : v = .ok (some p)) :
    ∃ rest, t.batch = Function.update s.batch d rest ∧
      (s.batch d = p :: rest ∧ t.stayed = s.stayed ∨
        s.batch d = [] ∧ (p :: rest).Nodup ∧
          (∀ q ∈ p :: rest, q.inDir d = true ∧ s.fs.get q ≠ none ∧ q ∉ s.stayed d) ∧
          t.stayed = Function.update s.stayed d (p :: rest ++ s.stayed d)) := by
  obtain ⟨-, ⟨-, hv, -⟩ | ⟨q, rest, hv, hbatch, hfrom⟩⟩ := h
  · cases hp.symm.trans hv
  · cases hp.symm.trans hv
    exact ⟨rest, hbatch, hfrom⟩

section Answered

/-- The status call is the only one that lists entry by entry, and is called once. -/
theorem calling_of_step {m : Move Actor ScanRep} (hstep : Actor.Step c m u) (hu : Calling u) :
    Calling c := by
  cases hstep with
  | @answer P s w i r k v hp hv =>
    intro x hx
    by_cases hi : i = .status
    · subst hi
      cases hp.symm.trans hx
    · exact hu x ((Function.update_of_ne (Ne.symm hi) _ _).trans hx)
  | @launch P s i x p hp hl =>
    intro y hy
    by_cases hi : i = .status
    · subst hi
      exact hl.elim
    · exact hu y ((Function.update_of_ne (Ne.symm hi) _ _).trans hy)

/-- An answer the status call got was given in a state of the run, before the call returned. -/
theorem exists_answered {r : ScanReq} {v : ScanRep r} {h g : ScanHistory}
    (hrun : Exec Actor.Step a tr b) (hmem : history .status tr = h ++ ⟨r, v⟩ :: g) :
    ∃ tr₁ tr₂ c u, tr = tr₁ ++ (.answer .status r v, u) :: tr₂ ∧ history .status tr₁ = h ∧
      Exec Actor.Step a tr₁ c ∧ Calling c ∧ Scanning c.state r v u.state := by
  obtain ⟨tr₁, u, tr₂, rfl, hh, -⟩ := history_eq_append.mp hmem
  obtain ⟨c, hc, hstep, -⟩ := hrun.cut
  refine ⟨tr₁, tr₂, c, u, rfl, hh, hc, ?_⟩
  cases hstep with
  | answer hp hv => exact ⟨fun x hx => (by cases hp.symm.trans hx), hv⟩

end Answered

/-- How the listing of `d` stands when it has yielded `l`: what its batch still brings is of `d` and
was there, and what comes again or has not stayed has been away. -/
structure Tracked (a : System) (tr : Trace) (d : Dir) (l : List Path) (s : Listed) : Prop where
  nodup : (s.batch d).Nodup
  held : ∀ p ∈ s.batch d, p.inDir d = true ∧ During a tr fun fs => fs.get p ≠ none
  again : ∀ p ∈ s.batch d, p ∈ l → During a tr fun fs => fs.get p = none
  stayed : ∀ p, p ∈ l ∨ p ∈ s.batch d → p ∈ s.stayed d ∨ During a tr fun fs => fs.get p = none

section Tracked

variable {s t : Listed} {l : List Path} {x : Move Actor ScanRep × System}

theorem Tracked.append (h : Tracked a tr d l s) (tr' : Trace) : Tracked a (tr ++ tr') d l s where
  nodup := h.nodup
  held p hp := ⟨(h.held p hp).1, (h.held p hp).2.append tr'⟩
  again p hp hl := (h.again p hp hl).append tr'
  stayed p hp := (h.stayed p hp).imp_right fun haway => haway.append tr'

/-- Nothing is asked of the listing of `d`. -/
theorem Tracked.of_eq (h : Tracked a tr d l s) (hbatch : t.batch d = s.batch d)
    (hstayed : ∀ p ∈ s.stayed d, p ∈ t.stayed d ∨ During a tr fun fs => fs.get p = none) :
    Tracked a tr d l t where
  nodup := hbatch ▸ h.nodup
  held := hbatch ▸ h.held
  again := hbatch ▸ h.again
  stayed p hp := by
    rcases h.stayed p (hbatch ▸ hp) with hs | haway
    · exact hstayed p hs
    · exact Or.inr haway

theorem Tracked.of_nil (hbatch : s.batch d = []) : Tracked a tr d [] s where
  nodup := hbatch ▸ List.nodup_nil
  held p hp := by
    rw [hbatch] at hp
    cases hp
  again p hp := by
    rw [hbatch] at hp
    cases hp
  stayed p hp := by
    rw [hbatch] at hp
    rcases hp with hp | hp
    · cases hp
    · cases hp

variable {v : ScanRep (.nextEntry d)}

/-- The listing of `d` yields `p`: it is of `d` and was there, and has been away if it comes
again. -/
theorem Tracked.yields (h : Tracked a tr d l c.state) (hrun : Exec Actor.Step a tr c)
    (hc : Calling c) (hv : Scanning c.state (.nextEntry d) v t) (hp : v = .ok (some p)) :
    (p.inDir d = true ∧ During a tr fun fs => fs.get p ≠ none) ∧
      (p ∈ l → During a tr fun fs => fs.get p = none) ∧ Tracked a tr d (l ++ [p]) t := by
  obtain ⟨rest, hbatch, hfrom⟩ := Scanning.yields hv hp
  have hrest : t.batch d = rest := by rw [hbatch, Function.update_self]
  rcases hfrom with ⟨hold, hstayed⟩ | ⟨hnil, hnodup, hnew, hstayed⟩
  · -- the entry is one that an earlier batch has brought
    have hmem : ∀ q ∈ p :: rest, q ∈ c.state.batch d := fun q hq => hold ▸ hq
    have hnodup : (p :: rest).Nodup := hold ▸ h.nodup
    refine ⟨h.held p (hmem p List.mem_cons_self), h.again p (hmem p List.mem_cons_self), ?_⟩
    refine ⟨hrest ▸ hnodup.of_cons, fun q hq => ?_, fun q hq hl => ?_, fun q hq => ?_⟩
    · exact h.held q (hmem q (List.mem_cons_of_mem _ (hrest ▸ hq)))
    · have hq : q ∈ rest := hrest ▸ hq
      rcases List.mem_append.mp hl with hl | hl
      · exact h.again q (hmem q (List.mem_cons_of_mem _ hq)) hl
      · obtain rfl := List.mem_singleton.mp hl
        exact absurd hq (List.nodup_cons.mp hnodup).1
    · rw [hstayed]
      refine h.stayed q ?_
      rw [hrest, List.mem_append, List.mem_singleton] at hq
      rcases hq with (hq | rfl) | hq
      · exact Or.inl hq
      · exact Or.inr (hmem q List.mem_cons_self)
      · exact Or.inr (hmem q (List.mem_cons_of_mem _ hq))
  · -- the entry comes first in a new batch
    have hheld : ∀ q ∈ p :: rest, q.inDir d = true ∧ During a tr fun fs => fs.get q ≠ none :=
      fun q hq => ⟨(hnew q hq).1,
        during_last (P := fun fs => fs.get q ≠ none) hrun hc (hnew q hq).2.1⟩
    have hagain : ∀ q ∈ p :: rest, q ∈ l → During a tr fun fs => fs.get q = none :=
      fun q hq hl => (h.stayed q (Or.inl hl)).resolve_left (hnew q hq).2.2
    have hstay : t.stayed d = p :: rest ++ c.state.stayed d := by rw [hstayed, Function.update_self]
    refine ⟨hheld p List.mem_cons_self, hagain p List.mem_cons_self, ?_⟩
    refine ⟨hrest ▸ hnodup.of_cons, fun q hq => ?_, fun q hq hl => ?_, fun q hq => ?_⟩
    · exact hheld q (List.mem_cons_of_mem _ (hrest ▸ hq))
    · have hq : q ∈ rest := hrest ▸ hq
      rcases List.mem_append.mp hl with hl | hl
      · exact hagain q (List.mem_cons_of_mem _ hq) hl
      · obtain rfl := List.mem_singleton.mp hl
        exact absurd hq (List.nodup_cons.mp hnodup).1
    · rw [hstay]
      rw [hrest, List.mem_append, List.mem_singleton] at hq
      rcases hq with (hq | rfl) | hq
      · exact (h.stayed q (Or.inl hq)).imp_left fun hs => List.mem_append_right _ hs
      · exact Or.inl (List.mem_append_left _ List.mem_cons_self)
      · exact Or.inl (List.mem_append_left _ (List.mem_cons_of_mem _ hq))

end Tracked

/-- A call on a file: of the entries brought, those stay that are still there. -/
theorem Tracked.queue {l : List Path} {s : Listed} {r : Req} {v : Rep r}
    (h : Tracked a tr d l s) (hrun : Exec Actor.Step a tr b) (hb : Calling b)
    (hv : Scanning s (.queue r) v b.state) : Tracked a tr d l b.state := by
  obtain ⟨-, hbatch, hstayed⟩ := hv
  refine h.of_eq (by rw [hbatch]) fun p hp => ?_
  rw [hstayed]
  cases hget : b.state.fs.get p with
  | none => exact Or.inr (during_last (P := fun fs => fs.get p = none) hrun hb hget)
  | some _ => exact Or.inl (List.mem_filter.mpr ⟨hp, by rw [hget]; rfl⟩)

/-- The listings, step after step until the call returns. -/
theorem tracked_exec (hrun : Exec Actor.Step a tr b) (hnone : ∀ d, a.state.batch d = [])
    (hb : Calling b) : Tracked a tr d (sinceOpen d (history .status tr)) b.state := by
  induction hrun with
  | nil => exact .of_nil (hnone d)
  | @snoc tr c u m hrun hstep ih =>
    have hc : Calling c := calling_of_step hstep hb
    have hold := (ih hc).append [(m, u)]
    have hnext : Exec Actor.Step a (tr ++ [(m, u)]) u := hrun.snoc hstep
    rw [history_append]
    cases hstep with
    | launch hp hl => simpa [history] using hold
    | @answer P s w i r k v hp hv =>
      cases i with
      | operation i =>
        -- the files may change, the listings do not
        cases r with
        | queue r => simpa [history] using hold.queue hnext hb hv
        | openDir d' => exact hv.elim
        | nextEntry d' => exact hv.elim
      | status =>
        show Tracked a _ d (sinceOpen d (history .status tr ++ [⟨r, v⟩])) w
        rw [sinceOpen_snoc]
        cases r with
        | queue r => exact hold.queue hnext hb hv
        | openDir d' =>
          -- opening `d` starts a new pass, opening another directory leaves this one alone
          obtain ⟨-, hbatch, hstayed, -⟩ := hv
          by_cases hd : d' = d
          · subst hd
            simp only [onPass, if_true]
            exact .of_nil (by rw [hbatch, Function.update_self])
          · simp only [onPass, if_neg hd]
            refine hold.of_eq (by rw [hbatch, Function.update_of_ne (Ne.symm hd)]) fun p hp => ?_
            rw [hstayed, Function.update_of_ne (Ne.symm hd)]
            exact Or.inl hp
        | nextEntry d' =>
          -- what the listing of `d` yields is brought in; its end brings nothing
          by_cases hd : d' = d
          · subst hd
            rcases v with err | _ | p
            · obtain ⟨-, ⟨-, ⟨⟩, -⟩ | ⟨p, rest, ⟨⟩, -⟩⟩ := hv
            · obtain ⟨-, ⟨-, -, hbatch, hstayed⟩ | ⟨p, rest, ⟨⟩, -⟩⟩ := hv
              exact hold.of_eq (by rw [hbatch]) fun p hp => Or.inl (by rw [hstayed]; exact hp)
            · simp only [onPass, if_true]
              exact ((ih hc).yields hrun hc hv rfl).2.2.append _
          · have hsame : onPass d (sinceOpen d (history .status tr)) (.nextEntry d') v =
                sinceOpen d (history .status tr) := by
              rcases v with err | _ | p
              · rfl
              · rfl
              · exact if_neg hd
            rw [hsame]
            obtain ⟨-, ⟨-, -, hbatch, hstayed⟩ | ⟨p, rest, -, hbatch, hfrom⟩⟩ := hv
            · exact hold.of_eq (by rw [hbatch]) fun p hp => Or.inl (by rw [hstayed]; exact hp)
            · refine hold.of_eq (by rw [hbatch, Function.update_of_ne (Ne.symm hd)]) fun q hq => ?_
              rcases hfrom with ⟨-, hstayed⟩ | ⟨-, -, -, hstayed⟩
              · exact Or.inl (by rw [hstayed]; exact hq)
              · rw [hstayed, Function.update_of_ne (Ne.symm hd)]
                exact Or.inl hq

/-- A listing yields an entry of its directory that was there, and one again only if it has been
away. -/
theorem yields_present {h g : ScanHistory} (hrun : Exec Actor.Step a tr b)
    (hnone : ∀ d, a.state.batch d = [])
    (hmem : history .status tr = h ++ ⟨.nextEntry d, .ok (some p)⟩ :: g) :
    p.inDir d = true ∧ During a tr (fun fs => fs.get p ≠ none) ∧
      (p ∈ sinceOpen d h → During a tr fun fs => fs.get p = none) := by
  obtain ⟨tr₁, tr₂, c, u, rfl, rfl, hc, hcalling, hv⟩ := exists_answered hrun hmem
  obtain ⟨⟨hin, hheld⟩, hagain, -⟩ := (tracked_exec hc hnone hcalling).yields hc hcalling hv rfl
  exact ⟨hin, hheld.append _, fun hp => (hagain hp).append _⟩

/-- Whatever the snapshot looks at is still there when it does, and a sidecar that it reads
decodes. -/
def Undisturbed (a : System) (tr : Trace) : Prop :=
  ∀ c r v u, Exec.Takes Actor.Step a tr c (.answer .status r v) u → Finds c.state.fs r

theorem allFound_iff (hrun : Exec Actor.Step a tr b) :
    AllFound (history .status tr) ↔ Undisturbed a tr := by
  let good : System → Move Actor ScanRep → System → Prop :=
    fun _ m _ => ∀ r v, m = .answer .status r v → Found r v
  let claim : System → Move Actor ScanRep → System → Prop :=
    fun c m _ => ∀ r v, m = .answer .status r v → Finds c.state.fs r
  have hstep : ∀ c m u, Actor.Step c m u → (good c m u ↔ claim c m u) := by
    intro c m u hstep
    cases hstep with
    | launch hp hl =>
      constructor
      · rintro - r v ⟨⟩
      · rintro - r v ⟨⟩
    | answer hp hv =>
      constructor
      · rintro hgood r v ⟨⟩
        exact hv.found_iff.mp (hgood _ _ rfl)
      · rintro hclaim r v ⟨⟩
        exact hv.found_iff.mpr (hclaim _ _ rfl)
  have hiff : (∀ c m u, Exec.Takes Actor.Step a tr c m u → good c m u) ↔
      ∀ c m u, Exec.Takes Actor.Step a tr c m u → claim c m u :=
    hrun.forall_good_iff (I := fun _ => True) trivial (fun _ _ _ _ _ _ => trivial)
      fun c m u _ hs => hstep c m u hs
  constructor
  · intro hall c r v u htk
    refine hiff.mp (fun c m u htk r v hm => ?_) c _ u htk r v rfl
    subst hm
    obtain ⟨tr₁, tr₂, rfl, -⟩ := htk
    exact hall ⟨r, v⟩ (mem_history.mpr ⟨u, by simp⟩)
  · rintro hfinds ⟨r, v⟩ hmem
    obtain ⟨h, g, hsplit⟩ := List.append_of_mem hmem
    obtain ⟨tr₁, tr₂, c, u, htr, -, hc, -, hv⟩ := exists_answered hrun hsplit
    exact hv.found_iff.mpr (hfinds c r v u ⟨tr₁, tr₂, htr, hc⟩)

theorem allFaultless_history (hrun : Exec Actor.Step a tr b) (hnone : ∀ d, a.state.batch d = []) :
    AllFaultless (history .status tr) := by
  rintro ⟨r, v⟩ hmem
  obtain ⟨h, g, hsplit⟩ := List.append_of_mem hmem
  obtain ⟨-, -, c, u, -, -, -, -, hv⟩ := exists_answered hrun hsplit
  cases r with
  | queue r => trivial
  | openDir d =>
    obtain ⟨-, -, -, ⟨n, rfl⟩ | ⟨rfl, -⟩⟩ := hv
    · exact Or.inr ⟨n, rfl⟩
    · exact Or.inl rfl
  | nextEntry d =>
    obtain ⟨-, ⟨-, rfl, -⟩ | ⟨p, rest, rfl, -⟩⟩ := hv
    · exact Or.inl rfl
    · exact Or.inr ⟨p, rfl, (yields_present hrun hnone hsplit).1⟩

/-- One listing of `d`: every entry that it yields was there at some moment of the call, and one
that it yields again has been away; every length told and every record read was that of the file. -/
structure Present (a : System) (tr : Trace) (d : Dir) (h : ScanHistory) : Prop where
  yielded : ∀ p ∈ yielded h, p.inDir d = true ∧ During a tr fun fs => fs.get p ≠ none
  again : ∀ p, 1 < (Perchstation.yielded h).count p → During a tr fun fs => fs.get p = none
  measured : ∀ x ∈ measured h, During a tr fun fs => ∃ b, fs.get x.1 = some b ∧ b.HasLen x.2
  readBack : ∀ x ∈ readBack h, During a tr fun fs => fs.get x.1 = some (.sidecar x.2)

/-- The snapshot's numbers are those of what its listings yielded, and all of that was in its
directory at some moment of the call. -/
structure CountsPresent (a : System) (tr : Trace) (s : StatusSnapshot) (x : Listings) : Prop where
  history : history .status tr = x.history
  counts : Counts x s
  pending : Present a tr .pending x.pending
  inflight : Present a tr .inflight x.inflight
  pendingMedia : Present a tr .pending x.pendingMedia
  inflightMedia : Present a tr .inflight x.inflightMedia
  delivered : Present a tr .delivered x.delivered

theorem present_of_pass {h g g' : ScanHistory} (hrun : Exec Actor.Step a tr b)
    (hnone : ∀ d, a.state.batch d = []) (hpass : Pass d g)
    (hmem : history .status tr = h ++ (g ++ g')) : Present a tr d g := by
  have hat : ∀ {r : ScanReq} {v : ScanRep r} {g₁ g₂ : ScanHistory}, g = g₁ ++ ⟨r, v⟩ :: g₂ →
      history .status tr = (h ++ g₁) ++ ⟨r, v⟩ :: (g₂ ++ g') := by
    rintro r v g₁ g₂ rfl
    simp [hmem]
  refine ⟨fun p hp => ?_, fun p hp => ?_, ?_, ?_⟩
  · obtain ⟨g₁, g₂, hsplit⟩ := List.append_of_mem (hpass.mem_yielded.mp hp)
    obtain ⟨hin, hheld, -⟩ := yields_present hrun hnone (hat hsplit)
    exact ⟨hin, hheld⟩
  · obtain ⟨g₁, g₂, hsplit, hbefore⟩ := hpass.exists_again hp
    refine (yields_present hrun hnone (hat hsplit)).2.2 ?_
    rw [Pass.sinceOpen_eq (hsplit ▸ hpass) (by rintro rfl; cases hbefore)]
    exact hbefore
  · rintro ⟨p, n⟩ hx
    obtain ⟨g₁, g₂, hsplit⟩ := List.append_of_mem (mem_measured.mp hx)
    obtain ⟨tr₁, tr₂, c, u, rfl, -, hc, hcalling, hv⟩ := exists_answered hrun (hat hsplit)
    obtain ⟨-, ⟨⟩⟩ | ⟨b, m, hb, hm, ⟨⟩⟩ := hv.metadata
    exact (during_last (P := fun fs => ∃ b, fs.get p = some b ∧ b.HasLen n) hc hcalling
      ⟨b, hb, hm⟩).append _
  · rintro ⟨p, e⟩ hx
    obtain ⟨g₁, g₂, hsplit⟩ := List.append_of_mem (mem_readBack.mp hx)
    obtain ⟨tr₁, tr₂, c, u, rfl, -, hc, hcalling, hv⟩ := exists_answered hrun (hat hsplit)
    obtain ⟨-, ⟨⟩⟩ | ⟨b, hb, ⟨⟩⟩ := hv.read
    exact (during_last (P := fun fs => fs.get p = some (.sidecar e)) hc hcalling hb).append _

theorem countsPresent {s : StatusSnapshot} {x : Listings} (hrun : Exec Actor.Step a tr b)
    (hnone : ∀ d, a.state.batch d = []) (hx : history .status tr = x.history)
    (hs : Counts x s) : CountsPresent a tr s x := by
  obtain ⟨bytes, bytes', hbytes, hbytes', -⟩ := hs.queue.bytes
  obtain ⟨es, hread, -⟩ := hs.delivered
  have hpart : ∀ {d : Dir} {g : ScanHistory} (h g' : ScanHistory), Pass d g →
      x.history = h ++ (g ++ g') → Present a tr d g :=
    fun h g' hpass hsplit => present_of_pass hrun hnone hpass (hx.trans hsplit)
  refine ⟨hx, hs, ?_, ?_, ?_, ?_, ?_⟩
  · exact hpart [] _ hs.queue.pending.pass rfl
  · exact hpart x.pending _ hs.queue.inflight.pass rfl
  · exact hpart (x.pending ++ x.inflight) _ hbytes.pass (List.append_assoc _ _ _).symm
  · refine hpart (x.pending ++ x.inflight ++ x.pendingMedia) x.delivered hbytes'.pass ?_
    simp only [Listings.history, List.append_assoc]
  · refine hpart (x.pending ++ x.inflight ++ x.pendingMedia ++ x.inflightMedia) [] hread.pass ?_
    simp only [Listings.history, List.append_assoc, List.append_nil]

/-- Every request of a snapshot is answered, and changes no file. -/
theorem scanning_total {s : Listed} {r : ScanReq} (hs : Measurable s.fs) (hr : r.IsLook) :
    ∃ v t, Scanning s r v t ∧ Measurable t.fs := by
  cases r with
  | queue r =>
    let t : Listed := ⟨s.fs, s.batch, fun d => (s.stayed d).filter fun p => (s.fs.get p).isSome⟩
    cases r with
    | metadata p =>
      cases hp : s.fs.get p with
      | none => exact ⟨.error .notFound, t, ⟨⟨rfl, by rw [hp]⟩, rfl, rfl⟩, hs⟩
      | some b =>
        obtain ⟨n, hn⟩ := hs p b hp
        exact ⟨.ok n, t, ⟨⟨rfl, by rw [hp]; exact ⟨n, hn, rfl⟩⟩, rfl, rfl⟩, hs⟩
    | read p =>
      cases hp : s.fs.get p with
      | none => exact ⟨.error .notFound, t, ⟨⟨rfl, by rw [hp]⟩, rfl, rfl⟩, hs⟩
      | some b => exact ⟨.ok b, t, ⟨⟨rfl, by rw [hp]⟩, rfl, rfl⟩, hs⟩
    | _ => exact hr.elim
  | openDir d =>
    exact ⟨.ok 0, ⟨s.fs, Function.update s.batch d [], Function.update s.stayed d []⟩,
      ⟨rfl, rfl, rfl, Or.inl ⟨0, rfl⟩⟩, hs⟩
  | nextEntry d =>
    cases hd : s.batch d with
    | nil => exact ⟨.ok none, s, ⟨rfl, Or.inl ⟨hd, rfl, rfl, rfl⟩⟩, hs⟩
    | cons p rest =>
      exact ⟨.ok (some p), ⟨s.fs, Function.update s.batch d rest, s.stayed⟩,
        ⟨rfl, Or.inr ⟨p, rest, rfl, rfl, Or.inl ⟨hd, rfl⟩⟩⟩, hs⟩

variable {profile : Profile} {identity : Option (Except IdentityError StationIdentity)}
  {now : DateTime} {capture : Option CaptureState}

/-- Left alone, the status call comes to its end. -/
theorem exists_snapshot_end (hcall : a.prog .status = snapshot profile identity now capture)
    (hrun : Exec Actor.Step a tr b) (hb : Measurable b.state.fs) :
    ∃ r tr' b', Exec Actor.Step b tr' b' ∧ b'.prog .status = .pure r := by
  have hwithin : Within ScanReq.IsLook (b.prog .status) :=
    within_of_exec hrun (fun _ _ hl => hl.elim) (hcall ▸ within_snapshot)
  obtain ⟨r, t, hend, -⟩ : ∃ r t, Runs Scanning (b.prog .status) b.state r t ∧ Measurable t.fs :=
    hwithin.exists_runs (I := fun s : Listed => Measurable s.fs)
      (fun _ _ hs hr => scanning_total hs hr) hb
  obtain ⟨tr', hexec⟩ := RunsTo.exec Actor.Answers Actor.Launches .status b.prog
    (runsTo_pure hend)
  refine ⟨r, tr', _, hexec, ?_⟩
  exact Function.update_self Actor.status (.pure r) b.prog

/-- A snapshot beside operations on the queue succeeds, and counts just what its listings yielded,
which was all there during the call, just if no file it looks at has vanished since its listing; and
it always comes to its end. -/
theorem snapshot_beside_operations
    (hcall : a.prog .status = snapshot profile identity now capture)
    (hnone : ∀ d, a.state.batch d = []) (hrun : Exec Actor.Step a tr b) :
    (∀ r, b.prog .status = .pure r →
      ((∃ s x, r = some (.ok s) ∧ CountsPresent a tr s x) ↔
        Undisturbed a tr ∧ ByteSumsFit profile (history .status tr) ∧
          ∃ e, enrollmentSnapshot identity now = .ok e)) ∧
    (Measurable b.state.fs →
      ∃ r tr' b', Exec Actor.Step b tr' b' ∧ b'.prog .status = .pure r) := by
  refine ⟨fun r hr => ?_, exists_snapshot_end hcall hrun⟩
  have hfollows : Follows (snapshot profile identity now capture) (history .status tr) r :=
    hcall ▸ follows_of_exec (fun _ _ hl => hl) hrun hr
  obtain ⟨hok, hcounts⟩ := follows_snapshot hfollows (allFaultless_history hrun hnone)
  rw [allFound_iff hrun] at hok
  constructor
  · rintro ⟨s, -, hs, -⟩
    exact hok.mp ⟨s, hs⟩
  · intro hcond
    obtain ⟨s, hs⟩ := hok.mpr hcond
    obtain ⟨x, hx, hcounted⟩ := hcounts s hs
    exact ⟨s, x, hs, countsPresent hrun hnone hx hcounted⟩

end System

/-! ## A hand-off between the listing and the look -/

/-- An operation meets the answers it would get without the status call. -/
theorem runs_onQueue {α : Type} {p : Act α} {fs t : Fs} {x : α} {l : Dir → List Path}
    (f : Dir → List Path) (h : Runs Nominal p fs x t) :
    ∃ g, Runs AtWork (onQueue p) ⟨fs, l, f⟩ x ⟨t, l, g⟩ := by
  induction p generalizing fs f with
  | pure y =>
    obtain ⟨rfl, rfl⟩ := h
    exact ⟨f, rfl, rfl⟩
  | ask r k ih =>
    obtain ⟨v, u, hv, h⟩ := h
    obtain ⟨g, hrest⟩ := ih v (fun d => (f d).filter fun p => (u.get p).isSome) h
    exact ⟨g, v, ⟨u, l, fun d => (f d).filter fun p => (u.get p).isSome⟩, ⟨hv, rfl, rfl⟩, hrest⟩

namespace SnapshotRace

open HandoffRace (clip queued handed)

/-- The status call, and no operation yet. -/
def sides : ∀ i : Actor, ScanAct i.Returns
  | .status => snapshot .release none clip.capturedAt none
  | .operation _ => .pure ()

/-- No entry of a listing is left. -/
def unlisted (fs : Fs) (stayed : Dir → List Path) : Listed := ⟨fs, fun _ => [], stayed⟩

/-- The sidecar and the media of the clip in `d`. -/
def both (d : Dir) : List Path := [.sidecar d "c1", .media d "c1"]

/-- The listing of `d` has the media left. -/
def halfListed (fs : Fs) (d : Dir) (stayed : Dir → List Path) : Listed :=
  ⟨fs, Function.update (fun _ => []) d [.media d "c1"], Function.update stayed d (both d)⟩

/-- The answers to a snapshot from whose listings nothing vanishes. -/
def Steady : Env ScanReq ScanRep Listed := fun s r v t => Scanning s r v t ∧ Found r v

variable {fs : Fs} {d : Dir} {f : Dir → List Path}

theorem steady_openDir (n : ℕ) :
    Steady (unlisted fs f) (.openDir d) (.ok n) (unlisted fs (Function.update f d [])) :=
  ⟨⟨rfl, (Function.update_eq_self d _).symm, rfl, Or.inl ⟨n, rfl⟩⟩, trivial⟩

theorem steady_sidecar (hboth : ∀ p ∈ both d, p.inDir d = true ∧ fs.get p ≠ none) :
    Steady (unlisted fs (Function.update f d [])) (.nextEntry d) (.ok (some (.sidecar d "c1")))
      (halfListed fs d f) := by
  refine ⟨⟨rfl, Or.inr ⟨_, _, rfl, rfl, Or.inr ⟨rfl, ?_, fun p hp => ?_, ?_⟩⟩⟩, trivial⟩
  · simp [Path.sidecar, Path.media]
  · obtain ⟨hin, hheld⟩ := hboth p hp
    refine ⟨hin, hheld, ?_⟩
    simp [unlisted]
  · simp [halfListed, unlisted, both]

theorem steady_media : Steady (halfListed fs d f) (.nextEntry d) (.ok (some (.media d "c1")))
    (unlisted fs (Function.update f d (both d))) :=
  ⟨⟨rfl, Or.inr ⟨_, [], rfl, by simp [unlisted, halfListed], Or.inl ⟨by simp [halfListed], rfl⟩⟩⟩,
    trivial⟩

/-- The look at a media of one byte. -/
theorem steady_metadata {data : List UInt8} {p : Path} (hp : fs.get p = some (.bytes data))
    (hlen : data.length = 1) : ∃ g, Steady (unlisted fs f) (.queue (.metadata p)) (.ok 1)
      (unlisted fs g) := by
  refine ⟨fun d => (f d).filter fun p => (fs.get p).isSome, ⟨⟨rfl, ?_⟩, rfl, rfl⟩, 1, rfl⟩
  have hget : (unlisted fs f).fs.get p = some (.bytes data) := hp
  rw [hget]
  exact ⟨1, hlen.symm, rfl⟩

theorem scanning_gone {p : Path} (hp : fs.get p = none) : ∃ g, Scanning (unlisted fs f)
    (.queue (.metadata p)) (.error .notFound) (unlisted fs g) := by
  refine ⟨fun d => (f d).filter fun p => (fs.get p).isSome, ⟨rfl, ?_⟩, rfl, rfl⟩
  have hget : (unlisted fs f).fs.get p = none := hp
  rw [hget]

theorem runsTo_ask {α : Type} {env : Env ScanReq ScanRep Listed} {s t u : Listed} {q : ScanAct α}
    (r : ScanReq) (v : ScanRep r) {k : ScanRep r → ScanAct α} (hv : env s r v u)
    (h : RunsTo env (k v) u q t) : RunsTo env (.ask r k) s q t := .ask hv h

/-- The snapshot of a queue whose one clip is handed off after the look at its media in `pending/`:
its media is counted there, and again in `inflight/`. -/
def countedTwice : StatusSnapshot where
  enrollment := ⟨.missing, none, none, none⟩
  queue := ⟨1, 0, 2⟩
  lastSuccess := none
  lastFailure := none
  recent := []
  capture := .default

/-- The snapshot up to its look at the media in `pending/`. -/
theorem runsTo_listed : ∃ q f, RunsTo Steady (sides .status) (unlisted queued fun _ => []) q
      (unlisted queued f) ∧
    (∃ q' g, RunsTo Steady q (unlisted queued f) q' (unlisted queued g) ∧
      ∀ f', ∃ g', RunsTo Steady q' (unlisted handed f') (.pure (some (.ok countedTwice)))
        (unlisted handed g')) ∧
    ∀ f', ∃ g', RunsTo Scanning q (unlisted handed f')
      (.pure (some (.error (.io (.directory .pending) .notFound)))) (unlisted handed g') := by
  have hpending : ∀ p ∈ both .pending, p.inDir .pending = true ∧ queued.get p ≠ none := by decide
  have hinflight : ∀ p ∈ both .inflight, p.inDir .inflight = true ∧ handed.get p ≠ none := by
    decide
  refine ⟨_, _, runsTo_ask (.openDir .pending) (.ok 2) (steady_openDir _) <|
    runsTo_ask (.nextEntry .pending) _ (steady_sidecar hpending) <|
    runsTo_ask (.nextEntry .pending) _ steady_media <|
    runsTo_ask (.openDir .inflight) (.ok 0) (steady_openDir _) <|
    runsTo_ask (.openDir .pending) (.ok 2) (steady_openDir _) <|
    runsTo_ask (.nextEntry .pending) _ (steady_sidecar hpending) <|
    runsTo_ask (.nextEntry .pending) _ steady_media <| .refl _ _, ?_, ?_⟩
  · obtain ⟨g, hlook⟩ := @steady_metadata queued _ [0] (.media .pending "c1") rfl rfl
    refine ⟨_, g, runsTo_ask (.queue (.metadata (.media .pending "c1"))) (.ok 1) hlook <|
      .refl _ _, fun f' => ?_⟩
    obtain ⟨g', hlook'⟩ := @steady_metadata handed _ [0] (.media .inflight "c1") rfl rfl
    exact ⟨_, runsTo_ask (.openDir .inflight) (.ok 2) (steady_openDir _) <|
      runsTo_ask (.nextEntry .inflight) _ (steady_sidecar hinflight) <|
      runsTo_ask (.nextEntry .inflight) _ steady_media <|
      runsTo_ask (.queue (.metadata (.media .inflight "c1"))) (.ok 1) hlook' <|
      runsTo_ask (.openDir .delivered) (.ok 0) (steady_openDir _) <| .refl _ _⟩
  · intro f'
    obtain ⟨g', hgone⟩ := @scanning_gone handed f' (.media .pending "c1") rfl
    exact ⟨g', runsTo_ask (.queue (.metadata (.media .pending "c1"))) (.error .notFound) hgone <|
      .refl _ _⟩

/-- The status call, alone for a while, finds what it looks for. -/
theorem exec_steady {P : ∀ i : Actor, ScanAct i.Returns} {s t : Listed}
    {q : ScanAct (Actor.Returns .status)} (h : RunsTo Steady (P .status) s q t) :
    ∃ tr, Exec Actor.Step ⟨P, s⟩ tr ⟨Function.update P .status q, t⟩ ∧
      AllFound (history .status tr) := by
  obtain ⟨tr, hrun, htr⟩ := RunsTo.exec_through Actor.Answers Actor.Launches .status P
    (I := fun r v _ => Found r v) h
  refine ⟨tr, hrun, ?_⟩
  rintro ⟨r, v⟩ hmem
  obtain ⟨u, hu⟩ := mem_history.mp hmem
  obtain ⟨r', v', heq, hv⟩ := htr _ hu
  cases heq
  exact hv

/-- The hand-off of the clip, started when the status call has come to `q`. -/
theorem exec_handoff (q : ScanAct (Actor.Returns .status)) (f : Dir → List Path) :
    ∃ tr g, Exec Actor.Step ⟨Function.update sides .status q, unlisted queued f⟩ tr
        ⟨Function.update sides .status q, unlisted handed g⟩ ∧ history .status tr = [] := by
  have hmove : Runs Nominal (QueueOp.transitionInflight clip clip.capturedAt).prog queued ()
      handed := by
    refine (runs_bind _ _ _ _ _).mpr ⟨.ok (startAttempt clip clip.capturedAt), handed, ?_, rfl, rfl⟩
    exact runs_transitionInflight.mpr (Or.inr ⟨.bytes [0], rfl, rfl, rfl⟩)
  obtain ⟨g, hworks⟩ := @runs_onQueue _ _ _ _ _ (fun _ => []) f hmove
  let op := QueueOp.transitionInflight clip clip.capturedAt
  let Q := Function.update sides .status q
  let P := Function.update Q (.operation 0) (onQueue op.prog)
  have hlaunch : Actor.Step ⟨Q, unlisted queued f⟩ (.launch (.operation 0))
      ⟨P, unlisted queued f⟩ :=
    PoolStep.launch (i := Actor.operation 0) (a := ()) rfl ⟨op, rfl⟩
  obtain ⟨tr, hrun, htr⟩ := RunsTo.exec_through Actor.Answers Actor.Launches (.operation 0) P
    (I := fun _ _ _ => True) ((runsTo_pure hworks).mono fun _ _ _ _ hv => ⟨hv, trivial⟩)
  have hback : Function.update P (.operation 0) (.pure ()) = Q := by
    rw [Function.update_idem]
    exact Function.update_eq_self (.operation 0) Q
  rw [hback] at hrun
  refine ⟨_, g, (Exec.nil.snoc hlaunch).append hrun, history_eq_nil fun x hx r v hv => ?_⟩
  rcases List.mem_append.mp hx with hx | hx
  · obtain rfl := List.mem_singleton.mp hx
    cases hv
  · obtain ⟨r', v', heq, -⟩ := htr x hx
    cases heq.symm.trans hv

end SnapshotRace

open SnapshotRace
open HandoffRace (clip queued handed)

/-- A hand-off takes the listed media away before the snapshot looks at it. -/
theorem snapshot_fails_beside_handoff : ∃ (tr : Trace) (b : System),
    Exec Actor.Step ⟨sides, unlisted queued fun _ => []⟩ tr b ∧
      b.prog (.operation 0) = .pure () ∧ b.state.fs = handed ∧
      b.prog .status = .pure (some (.error (.io (.directory .pending) .notFound))) := by
  obtain ⟨q, f, h1, -, h2⟩ := runsTo_listed
  obtain ⟨tr₁, e₁, -⟩ := exec_steady h1
  obtain ⟨tr₂, g, e₂, -⟩ := exec_handoff q f
  obtain ⟨g', hend⟩ := h2 g
  obtain ⟨tr₃, e₃⟩ := RunsTo.exec Actor.Answers Actor.Launches .status
    (Function.update sides .status q) hend
  exact ⟨_, _, (e₁.append e₂).append e₃, rfl, rfl, rfl⟩

/-- A hand-off between the looks at `pending/` and at `inflight/` lets the snapshot succeed. -/
theorem snapshot_beside_operations_handoff : ∃ (tr : Trace) (b : System) (x : Listings),
    Exec Actor.Step ⟨sides, unlisted queued fun _ => []⟩ tr b ∧
      b.prog (.operation 0) = .pure () ∧ b.state.fs = handed ∧
      b.prog .status = .pure (some (.ok countedTwice)) ∧
      CountsPresent ⟨sides, unlisted queued fun _ => []⟩ tr countedTwice x := by
  obtain ⟨q, f, h1, ⟨q', f', h2, h3⟩, -⟩ := runsTo_listed
  obtain ⟨tr₁, e₁, hfound₁⟩ := exec_steady (h1.trans h2)
  obtain ⟨tr₂, g, e₂, hquiet⟩ := exec_handoff q' f'
  obtain ⟨g', hend⟩ := h3 g
  obtain ⟨tr₃, e₃, hfound₃⟩ := @exec_steady (Function.update sides .status q') _ _ _ hend
  have hrun := (e₁.append e₂).append e₃
  have hfound : AllFound (history .status (tr₁ ++ tr₂ ++ tr₃)) := by
    rw [history_append, history_append, hquiet, List.append_nil]
    exact allFound_append.mpr ⟨hfound₁, hfound₃⟩
  have hcall : (⟨sides, unlisted queued fun _ => []⟩ : System).prog .status =
      snapshot .release none clip.capturedAt none := rfl
  have hiff := (snapshot_beside_operations hcall (fun _ => rfl) hrun).1 _ rfl
  obtain ⟨s', x, hs', hcounts⟩ := hiff.mpr
    ⟨(allFound_iff hrun).mp hfound, Or.inl rfl, _, rfl⟩
  obtain rfl := Except.ok.inj (Option.some.inj hs')
  exact ⟨_, _, x, hrun, rfl, rfl, rfl, hcounts⟩

end Perchstation
