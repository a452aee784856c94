import Perchstation.Race.Sweep

/-!
# A capture beside the runner

The system of two parties: a capture with its program, and the delivery runner, which makes one
transition after the other.  The queue they start from holds whole clips.  Two conditions on the
steps of a run are named: the victims of the capture's sweep have not moved when their media goes,
and a hand-off takes only clips of a given set out of `pending/`.
-/

namespace Perchstation

open Interleaving Resumption QueueStore

inductive Party
  | capture
  | runner
  deriving DecidableEq

namespace Party

/-- What a party's program returns. -/
@[reducible] def Returns (α : Type) : Party → Type
  | .capture => α
  | .runner => Except QueueError Unit

/-- The answers each party gets; the capture's are those of `env`. -/
def answers (env : Env Req Rep Fs) : Party → Env Req Rep Fs
  | .capture => env
  | .runner => Nominal

/-- The runner may start any transition that is ready; the capture goes through its program once. -/
def Launches {α : Type} : ∀ i : Party, Act (Returns α i) → Fs → Prop
  | .capture => fun _ _ => False
  | .runner => fun p fs => ∃ op : RunnerOp, op.Ready fs ∧ p = op.prog

/-- The capture before its first request, and the runner at rest. -/
def beside {α : Type} (p : Act α) : ∀ i : Party, Act (Returns α i)
  | .capture => p
  | .runner => pure (.ok ())

/-- One request of one party, or the start of a transition. -/
abbrev Step {α : Type} (env : Env Req Rep Fs) (a : Pool Req Rep (Returns α) Fs)
    (m : Move Party Rep) (b : Pool Req Rep (Returns α) Fs) : Prop :=
  PoolStep (answers env) Launches a m b

/-- The step removes no media of a victim that has moved. -/
def VictimsStay {α : Type} (a : Pool Req Rep (Returns α) Fs) (m : Move Party Rep) : Prop :=
  ∀ r v, m = .answer .capture r v → VictimStays a.state r v

/-- The step is no hand-off of a clip outside `seen`. -/
def HandsOffSeen {α : Type} (seen : ClipId → Prop) (a : Pool Req Rep (Returns α) Fs)
    (m : Move Party Rep) (b : Pool Req Rep (Returns α) Fs) : Prop :=
  ∀ r v, m = .answer .runner r v → HandsOff seen a.state b.state

end Party

namespace ClipFiles

/-- The files of a clip that no operation is under way for. -/
inductive Whole (c : ClipId) : ClipFiles → Prop
  | absent : Whole c ⟨none, none, none, none, none, none⟩
  | pending {e : ClipQueueEntry} {data : List UInt8} : e.clipId = c →
      data.length = e.byteSize.toNat → e.isTerminal = false →
      Whole c ⟨some (.bytes data), some (.sidecar e), none, none, none, none⟩
  | inflight {e : ClipQueueEntry} {data : List UInt8} : e.clipId = c →
      data.length = e.byteSize.toNat → e.isTerminal = false →
      Whole c ⟨none, none, some (.bytes data), some (.sidecar e), none, none⟩
  | delivered {e : ClipQueueEntry} : e.clipId = c →
      Whole c ⟨none, none, none, none, none, some (.sidecar e)⟩

/-- The bytes recorded for a whole clip. -/
def recorded (v : ClipFiles) : UInt64 :=
  match v.pendingSidecar, v.inflightSidecar, v.deliveredSidecar with
  | some (.sidecar e), _, _ => e.byteSize
  | _, some (.sidecar e), _ => e.byteSize
  | _, _, some (.sidecar e) => e.byteSize
  | _, _, _ => 0

variable {c : ClipId} {v : ClipFiles}

theorem Whole.legal (h : Whole c v) {n : UInt64} (hn : v.Stored → n = v.recorded) (new : Prop) :
    v.Legal c n new := by
  cases h with
  | absent => constructor <;> simp
  | @pending e data hc hlen ho =>
    obtain rfl := hn (Or.inl (by simp))
    have hrecord : RecordOf c e.byteSize (.sidecar e) := ⟨e, rfl, hc, rfl⟩
    have hopen : Unfinished (.sidecar e) := ⟨e, rfl, ho⟩
    have hfootage : Footage e.byteSize (.bytes data) := ⟨data, rfl, hlen⟩
    constructor <;> simp [recorded, hrecord, hopen, hfootage]
  | @inflight e data hc hlen ho =>
    obtain rfl := hn (Or.inr (Or.inr (Or.inl (by simp))))
    have hrecord : RecordOf c e.byteSize (.sidecar e) := ⟨e, rfl, hc, rfl⟩
    have hfootage : Footage e.byteSize (.bytes data) := ⟨data, rfl, hlen⟩
    constructor <;> simp [recorded, hrecord, hfootage]
  | @delivered e hc =>
    obtain rfl := hn (Or.inr (Or.inr (Or.inr (Or.inr (Or.inr (by simp))))))
    have hrecord : RecordOf c e.byteSize (.sidecar e) := ⟨e, rfl, hc, rfl⟩
    constructor <;> simp [recorded, hrecord]

theorem Whole.atRest (h : Whole c v) : v.AtRest := by
  intro b hb
  cases h with
  | inflight hc hlen ho =>
    cases hb
    exact ⟨by simp, rfl, _, rfl, ho⟩
  | _ => cases hb

theorem Whole.paired (h : Whole c v) (hp : v.pendingSidecar ≠ none) : v.HasMedia := by
  cases h with
  | pending hc hlen ho => exact Or.inl (by simp)
  | _ => exact (hp rfl).elim

end ClipFiles

/-- Every clip of the queue is whole. -/
def AllWhole (fs : Fs) : Prop := ∀ c, (filesOf fs c).Whole c

section System

variable {α : Type} {n : ClipId → UInt64} {new seen : ClipId → Prop} {fs : Fs}
  {env : Env Req Rep Fs} {post : α → Fs → Prop}

namespace Party

/-- The answers in a run whose steps meet both conditions. -/
def fair (seen : ClipId → Prop) : Party → Env Req Rep Fs
  | .capture => fun s r v _ => VictimStays s r v
  | .runner => fun s _ _ t => HandsOff seen s t

def rely (n : ClipId → UInt64) (new seen : ClipId → Prop) : Party → Fs → Fs → Prop
  | .capture => SeenStep n seen
  | .runner => CaptureStep n new

def guar (n : ClipId → UInt64) (new seen : ClipId → Prop) : Party → Fs → Fs → Prop
  | .capture => CaptureStep n new
  | .runner => SeenStep n seen

def ends (post : α → Fs → Prop) : ∀ i : Party, Returns α i → Fs → Prop
  | .capture => post
  | .runner => fun _ fs => AllAtRest fs

/-- The answers of `env` to a party that meet its condition. -/
abbrev Fair (env : Env Req Rep Fs) (seen : ClipId → Prop) (i : Party) : Env Req Rep Fs :=
  fun s r v t => answers env i s r v t ∧ fair seen i s r v t

/-- The runner and a capture whose result outlives the runner's steps suit each other. -/
theorem agreed (hstable : ∀ a s t, RunnerStep n s t → LegalQueue n new s → post a s → post a t) :
    Agreed (Fair env seen) Launches (LegalQueue n new) (rely n new seen) (guar n new seen)
      (ends post) where
  keeps i fs t h hl := by
    cases i with
    | capture => exact hl.captureStep h
    | runner => exact hl.runnerStep h.runner
  compatible i j fs t hij h _ _ := by
    cases i with
    | capture =>
      cases j with
      | capture => exact (hij rfl).elim
      | runner => exact h
    | runner =>
      cases j with
      | capture => exact h
      | runner => exact (hij rfl).elim
  stable i a fs t h hl _ ha := by
    cases i with
    | capture => exact hstable a fs t h.runner hl ha
    | runner => exact AllAtRest.captureStep ha h
  launched i p a fs hp hl ha := by
    cases i with
    | capture => exact hp.elim
    | runner =>
      obtain ⟨op, hready, rfl⟩ := hp
      exact (runner_upholds ha hl hready).restrict fun s _ _ t hoff hst => ⟨hst, hoff⟩

/-- The runs whose steps meet both conditions. -/
theorem exec_fair_iff {a b : Pool Req Rep (Returns α) Fs}
    {tr : List (Move Party Rep × Pool Req Rep (Returns α) Fs)} :
    Exec (PoolStep (Fair env seen) Launches) a tr b ↔ Exec (Step env) a tr b ∧
      (∀ c m d, Exec.Takes (Step env) a tr c m d → VictimsStay c m) ∧
      ∀ c m d, Exec.Takes (Step env) a tr c m d → HandsOffSeen seen c m d := by
  rw [exec_restrict_iff]
  refine and_congr_right fun _ => ⟨fun h => ⟨?_, ?_⟩, fun h c i r v d htk => ?_⟩
  · rintro c _ d htk r v rfl
    exact h c .capture r v d htk
  · rintro c _ d htk r v rfl
    exact h c .runner r v d htk
  · cases i with
    | capture => exact h.1 c _ d htk r v rfl
    | runner => exact h.2 c _ d htk r v rfl

/-- A run of both parties from a queue of whole clips keeps what the capture upholds on its own. -/
theorem sound {p : Act α} {tr : List (Move Party Rep × Pool Req Rep (Returns α) Fs)}
    {b : Pool Req Rep (Returns α) Fs}
    (hstable : ∀ a s t, RunnerStep n s t → LegalQueue n new s → post a s → post a t)
    (hp : Upholds (Fair env seen .capture) (LegalQueue n new) (SeenStep n seen) (CaptureStep n new)
      post p fs)
    (hlegal : LegalQueue n new fs) (hrest : AllAtRest fs)
    (hrun : Exec (PoolStep (Fair env seen) Launches) ⟨beside p, fs⟩ tr b) :
    Sound (Fair env seen) (LegalQueue n new) (rely n new seen) (guar n new seen) (ends post) b := by
  refine (agreed hstable).sound_exec hrun ⟨hlegal, fun i => ?_⟩
  cases i with
  | capture => exact hp
  | runner => exact upholds_pure hrest

/-- A transition of the runner that falls between two requests of the capture, of which the first is
`r`. -/
theorem exec_overtaken {p : Act α} {a : α} {fs₁ fs₂ fs₃ fs₄ : Fs} {E : Party → Env Req Rep Fs}
    {r : Req} {k : Rep r → Act α} {v : Rep r} (op : RunnerOp)
    (h₁ : RunsTo (E .capture) p fs (.ask r k) fs₁) (hv : E .capture fs₁ r v fs₂)
    (hready : op.Ready fs₂) (h₂ : RunsTo (E .runner) op.prog fs₂ (.pure (.ok ())) fs₃)
    (h₃ : RunsTo (E .capture) (k v) fs₃ (.pure a) fs₄) :
    ∃ (tr : List (Move Party Rep × Pool Req Rep (Returns α) Fs)) (b : Pool Req Rep (Returns α) Fs),
      Exec (PoolStep E Launches) ⟨beside p, fs⟩ tr b ∧ b.prog .capture = .pure a ∧
      b.prog .runner = .pure (.ok ()) ∧ b.state = fs₄ ∧
      (⟨r, v⟩ : (r : Req) × Rep r) ∈ history .capture tr := by
  obtain ⟨tr₁, e₁⟩ := RunsTo.exec E Launches .capture (beside p) h₁
  have hanswer : PoolStep E Launches ⟨Function.update (beside p) .capture (.ask r k), fs₁⟩
      (.answer .capture r v)
      ⟨Function.update (Function.update (beside p) .capture (.ask r k)) .capture (k v), fs₂⟩ :=
    .answer rfl hv
  rw [Function.update_idem] at hanswer
  have hlaunch : PoolStep E Launches ⟨Function.update (beside p) .capture (k v), fs₂⟩
      (.launch .runner)
      ⟨Function.update (Function.update (beside p) .capture (k v)) .runner op.prog, fs₂⟩ :=
    PoolStep.launch (i := Party.runner) (a := Except.ok ()) rfl ⟨op, hready, rfl⟩
  obtain ⟨tr₂, e₂⟩ := RunsTo.exec E Launches .runner
    (Function.update (Function.update (beside p) .capture (k v)) .runner op.prog) h₂
  obtain ⟨tr₃, e₃⟩ := RunsTo.exec E Launches .capture
    (Function.update (Function.update (Function.update (beside p) .capture (k v)) .runner op.prog)
      .runner (.pure (.ok ()))) h₃
  refine ⟨_, _, (((e₁.snoc hanswer).snoc hlaunch).append e₂).append e₃, rfl, rfl, rfl, ?_⟩
  exact mem_history.mpr ⟨⟨Function.update (beside p) .capture (k v), fs₂⟩, by simp⟩

end Party

end System

end Perchstation
