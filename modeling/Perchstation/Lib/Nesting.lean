import Mathlib.Data.List.Basic

/-!
# Nesting — how deep in brackets a scan of a text is

The scan knows the symbols that open and close a bracket, the quote around a literal, in which
brackets do not count, and the escape that takes the next symbol of a literal for itself.  A text in
brackets stays open until its last symbol.
-/

namespace Nesting

/-- What a symbol is to the scan. -/
inductive Kind
  | opens
  | closes
  | quote
  | escape
  | other
  deriving DecidableEq

inductive Mode
  | outside
  | inside
  | escaped

structure State where
  depth : ℕ
  mode : Mode

variable {α : Type} (kind : α → Kind)

/-- One symbol. -/
def step (st : State) (a : α) : State :=
  match st.mode, kind a with
  | .escaped, _ => { st with mode := .inside }
  | .inside, .quote => { st with mode := .outside }
  | .inside, .escape => { st with mode := .escaped }
  | .inside, _ => st
  | .outside, .opens => { st with depth := st.depth + 1 }
  | .outside, .closes => { st with depth := st.depth - 1 }
  | .outside, .quote => { st with mode := .inside }
  | .outside, _ => st

/-- The state after the symbols `l`. -/
def scan (st : State) (l : List α) : State := l.foldl (step kind) st

/-- The depth after all of `l`, from the beginning. -/
def depthAfter (l : List α) : ℕ := (scan kind ⟨0, .outside⟩ l).depth

/-- The symbols `l` take `st` to `t`, and the depth is at least `d` all the way. -/
def Passes (d : ℕ) : State → List α → State → Prop
  | st, [], t => d ≤ st.depth ∧ st = t
  | st, a :: l, t => d ≤ st.depth ∧ Passes d (step kind st a) l t

/-- Outside literals the text comes back to the depth it starts at and never goes below. -/
def Neutral (l : List α) : Prop := ∀ d, Passes kind d ⟨d, .outside⟩ l ⟨d, .outside⟩

/-- Inside a literal the text leaves the scan inside. -/
def Literal (l : List α) : Prop := ∀ d, Passes kind d ⟨d, .inside⟩ l ⟨d, .inside⟩

variable {kind} {d : ℕ} {st t u : State} {l l' p : List α} {a o c q e : α}

theorem Passes.append (h : Passes kind d st l t) (h' : Passes kind d t l' u) :
    Passes kind d st (l ++ l') u := by
  induction l generalizing st with
  | nil =>
    obtain ⟨-, rfl⟩ := h
    exact h'
  | cons a l ih => exact ⟨h.1, ih h.2⟩

theorem Passes.prefix_depth_le (h : Passes kind d st l t) (hp : p <+: l) :
    d ≤ (scan kind st p).depth := by
  induction l generalizing st p with
  | nil =>
    obtain rfl := List.prefix_nil.mp hp
    exact h.1
  | cons a l ih =>
    cases p with
    | nil => exact h.1
    | cons b p =>
      obtain ⟨rfl, hp'⟩ := List.cons_prefix_cons.mp hp
      show d ≤ (scan kind (step kind st b) p).depth
      exact ih h.2 hp'

theorem Passes.scan_eq (h : Passes kind d st l t) : scan kind st l = t := by
  induction l generalizing st with
  | nil => exact h.2
  | cons a l ih => exact ih h.2

/-! ## Literals -/

theorem literal_nil : Literal kind ([] : List α) := fun _ => ⟨Nat.le_refl _, rfl⟩

theorem Literal.append (h : Literal kind l) (h' : Literal kind l') : Literal kind (l ++ l') :=
  fun d => (h d).append (h' d)

theorem literal_plain (hq : kind a ≠ .quote) (he : kind a ≠ .escape) : Literal kind [a] := by
  intro d
  have hstep : step kind ⟨d, .inside⟩ a = ⟨d, .inside⟩ := by
    unfold step
    cases h : kind a with
    | quote => exact absurd h hq
    | escape => exact absurd h he
    | _ => rfl
  exact ⟨Nat.le_refl _, by rw [hstep]; exact ⟨Nat.le_refl _, rfl⟩⟩

theorem literal_of_forall (h : ∀ a ∈ l, kind a ≠ .quote ∧ kind a ≠ .escape) : Literal kind l := by
  induction l with
  | nil => exact literal_nil
  | cons a l ih =>
    have ha := h a List.mem_cons_self
    exact (literal_plain ha.1 ha.2).append (ih fun b hb => h b (List.mem_cons_of_mem _ hb))

/-- Whatever follows the escape. -/
theorem literal_escape (he : kind e = .escape) : Literal kind [e, a] := by
  intro d
  have h1 : step kind ⟨d, .inside⟩ e = ⟨d, .escaped⟩ := by simp [step, he]
  refine ⟨Nat.le_refl _, ?_⟩
  rw [h1]
  exact ⟨Nat.le_refl _, Nat.le_refl _, rfl⟩

/-! ## Texts -/

theorem neutral_nil : Neutral kind ([] : List α) := fun _ => ⟨Nat.le_refl _, rfl⟩

theorem Neutral.append (h : Neutral kind l) (h' : Neutral kind l') : Neutral kind (l ++ l') :=
  fun d => (h d).append (h' d)

theorem neutral_other (h : kind a = .other) : Neutral kind [a] := by
  intro d
  have hstep : step kind ⟨d, .outside⟩ a = ⟨d, .outside⟩ := by simp [step, h]
  exact ⟨Nat.le_refl _, by rw [hstep]; exact ⟨Nat.le_refl _, rfl⟩⟩

theorem neutral_of_forall (h : ∀ a ∈ l, kind a = .other) : Neutral kind l := by
  induction l with
  | nil => exact neutral_nil
  | cons a l ih =>
    exact (neutral_other (h a List.mem_cons_self)).append
      (ih fun b hb => h b (List.mem_cons_of_mem _ hb))

/-- A neutral text closes everything it opens. -/
theorem Neutral.depthAfter_eq (h : Neutral kind l) : depthAfter kind l = 0 :=
  congrArg State.depth (h 0).scan_eq

theorem Literal.quoted (h : Literal kind l) (hq : kind q = .quote) :
    Neutral kind (q :: l ++ [q]) := by
  intro d
  have hin : step kind ⟨d, .outside⟩ q = ⟨d, .inside⟩ := by simp [step, hq]
  have hout : step kind ⟨d, .inside⟩ q = ⟨d, .outside⟩ := by simp [step, hq]
  refine ⟨Nat.le_refl _, ?_⟩
  rw [hin]
  refine (h d).append ⟨Nat.le_refl _, ?_⟩
  rw [hout]
  exact ⟨Nat.le_refl _, rfl⟩

/-- After the opening bracket the text stays above the depth before it. -/
theorem Neutral.passes_open (h : Neutral kind l) (ho : kind o = .opens) :
    Passes kind (d + 1) (step kind ⟨d, .outside⟩ o) l ⟨d + 1, .outside⟩ := by
  have hin : step kind ⟨d, .outside⟩ o = ⟨d + 1, .outside⟩ := by simp [step, ho]
  rw [hin]
  exact h (d + 1)

theorem Passes.mono {d' : ℕ} (h : Passes kind d st l t) (hd : d' ≤ d) : Passes kind d' st l t := by
  induction l generalizing st with
  | nil => exact ⟨Nat.le_trans hd h.1, h.2⟩
  | cons a l ih => exact ⟨Nat.le_trans hd h.1, ih h.2⟩

theorem Neutral.bracketed (h : Neutral kind l) (ho : kind o = .opens) (hc : kind c = .closes) :
    Neutral kind (o :: l ++ [c]) := by
  intro d
  have hout : step kind ⟨d + 1, .outside⟩ c = ⟨d, .outside⟩ := by simp [step, hc]
  refine ⟨Nat.le_refl _, ((h.passes_open ho).mono (Nat.le_succ d)).append ⟨Nat.le_succ d, ?_⟩⟩
  rw [hout]
  exact ⟨Nat.le_refl _, rfl⟩

/-- A text in brackets is open after every part of it but the whole. -/
theorem Neutral.open_until_end (h : Neutral kind l) (ho : kind o = .opens)
    (hp : p <+: o :: l ++ [c]) (hne : p ≠ []) (hpart : p ≠ o :: l ++ [c]) :
    0 < depthAfter kind p := by
  have hinit : p <+: o :: l := by
    rcases List.prefix_concat_iff.mp hp with hall | hinit
    · exact absurd hall hpart
    · exact hinit
  cases p with
  | nil => exact absurd rfl hne
  | cons b p =>
    obtain ⟨rfl, hp'⟩ := List.cons_prefix_cons.mp hinit
    exact (h.passes_open ho).prefix_depth_le hp'

end Nesting
