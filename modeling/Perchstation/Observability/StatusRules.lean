import Perchstation.Lib.Interleaving
import Perchstation.Observability.Status
import Perchstation.Queue.ScanRules

/-!
# Status rules — what a snapshot makes of its answers

A snapshot is determined by what its listings yield and what its looks at files find.  It succeeds
just if every look has found its file, every sidecar read has decoded, and the byte counts fit.
-/

namespace Perchstation

open Interleaving Resumption QueueStore

abbrev ScanHistory : Type := History ScanReq ScanRep

/-- No listing fails, and each yields entries of its own directory. -/
def Faultless : (r : ScanReq) → ScanRep r → Prop
  | .queue _, _ => True
  | .openDir _, v => v = .error .notFound ∨ ∃ n, v = .ok n
  | .nextEntry d, v => v = .ok none ∨ ∃ p, v = .ok (some p) ∧ p.inDir d = true

/-- The file looked at is there, and the sidecar read decodes. -/
def Found : (r : ScanReq) → ScanRep r → Prop
  | .queue (.metadata _), v => ∃ n, v = .ok n
  | .queue (.read _), v => ∃ e, v = .ok (.sidecar e)
  | _, _ => True

/-- The length that the answer tells of a file of `d`. -/
def toldBy (d : Dir) : (r : ScanReq) → ScanRep r → ℕ
  | .queue (.metadata p), .ok n => if p.inDir d then n.toNat else 0
  | _, _ => 0

/-- The lengths of files of `d` that the answers tell of. -/
def told (d : Dir) (h : ScanHistory) : ℕ := (h.map fun x => toldBy d x.1 x.2).sum

/-- The entry that an answer yields. -/
def entryOf : (r : ScanReq) → ScanRep r → Option Path
  | .nextEntry _, .ok (some p) => some p
  | _, _ => none

/-- The file whose length an answer tells. -/
def lengthOf : (r : ScanReq) → ScanRep r → Option (Path × UInt64)
  | .queue (.metadata p), .ok n => some (p, n)
  | _, _ => none

/-- The sidecar that an answer reads. -/
def recordOf : (r : ScanReq) → ScanRep r → Option (Path × ClipQueueEntry)
  | .queue (.read p), .ok (.sidecar e) => some (p, e)
  | _, _ => none

/-- The entries that the answers yield, in their order. -/
def yielded (h : ScanHistory) : List Path := h.filterMap fun x => entryOf x.1 x.2

/-- The lengths that the answers tell, in their order. -/
def measured (h : ScanHistory) : List (Path × UInt64) := h.filterMap fun x => lengthOf x.1 x.2

/-- The sidecars that the answers read, in their order. -/
def readBack (h : ScanHistory) : List (Path × ClipQueueEntry) :=
  h.filterMap fun x => recordOf x.1 x.2

/-- `h` is one listing of `d`, with the looks at its entries. -/
def Pass (d : Dir) (h : ScanHistory) : Prop :=
  ∃ v g, h = ⟨.openDir d, v⟩ :: g ∧ ∀ x ∈ g, x.1 = .nextEntry d ∨ ∃ r, x.1 = .queue r

def AllFaultless (h : ScanHistory) : Prop := ∀ x ∈ h, Faultless x.1 x.2

def AllFound (h : ScanHistory) : Prop := ∀ x ∈ h, Found x.1 x.2

variable {h g : ScanHistory} {d : Dir} {p : Path} {n : ℕ}

@[simp] theorem allFound_nil : AllFound [] := fun _ hx => by cases hx

@[simp] theorem allFound_append : AllFound (h ++ g) ↔ AllFound h ∧ AllFound g :=
  List.forall_mem_append

@[simp] theorem allFound_cons {x : (r : ScanReq) × ScanRep r} :
    AllFound (x :: h) ↔ Found x.1 x.2 ∧ AllFound h := List.forall_mem_cons

theorem AllFaultless.left (hc : AllFaultless (h ++ g)) : AllFaultless h :=
  fun x hx => hc x (List.mem_append_left g hx)

theorem AllFaultless.right (hc : AllFaultless (h ++ g)) : AllFaultless g :=
  fun x hx => hc x (List.mem_append_right h hx)

@[simp] theorem told_nil : told d [] = 0 := rfl

@[simp] theorem told_append : told d (h ++ g) = told d h + told d g := by
  unfold told
  rw [List.map_append, List.sum_append]

@[simp] theorem told_cons {x : (r : ScanReq) × ScanRep r} :
    told d (x :: h) = toldBy d x.1 x.2 + told d h := rfl

@[simp] theorem yielded_append : yielded (h ++ g) = yielded h ++ yielded g :=
  List.filterMap_append

@[simp] theorem measured_append : measured (h ++ g) = measured h ++ measured g :=
  List.filterMap_append

@[simp] theorem readBack_append : readBack (h ++ g) = readBack h ++ readBack g :=
  List.filterMap_append

theorem mem_measured {p : Path} {n : UInt64} : (p, n) ∈ measured h ↔
    (⟨.queue (.metadata p), .ok n⟩ : (r : ScanReq) × ScanRep r) ∈ h := by
  unfold measured
  rw [List.mem_filterMap]
  constructor
  · rintro ⟨⟨r, v⟩, hx, hp⟩
    cases r with
    | queue r =>
      cases r with
      | metadata q =>
        cases v with
        | ok m =>
          cases hp
          exact hx
        | error err => cases hp
      | _ => cases hp
    | openDir d => cases hp
    | nextEntry d => cases hp
  · exact fun hx => ⟨_, hx, rfl⟩

theorem mem_readBack {p : Path} {e : ClipQueueEntry} : (p, e) ∈ readBack h ↔
    (⟨.queue (.read p), .ok (.sidecar e)⟩ : (r : ScanReq) × ScanRep r) ∈ h := by
  unfold readBack
  rw [List.mem_filterMap]
  constructor
  · rintro ⟨⟨r, v⟩, hx, hp⟩
    cases r with
    | queue r =>
      cases r with
      | read q =>
        rcases v with err | e' | data
        · cases hp
        · cases hp
          exact hx
        · cases hp
      | _ => cases hp
    | openDir d => cases hp
    | nextEntry d => cases hp
  · exact fun hx => ⟨_, hx, rfl⟩

theorem AllFaultless.tail {x : (r : ScanReq) × ScanRep r} (hc : AllFaultless (x :: h)) :
    AllFaultless h := fun y hy => hc y (List.mem_cons_of_mem _ hy)

/-! ## One pass over a directory -/

/-- What a listing of `d` has yielded since it was opened, one answer later. -/
def onPass (d : Dir) (l : List Path) : (r : ScanReq) → ScanRep r → List Path
  | .openDir d', _ => if d' = d then [] else l
  | .nextEntry d', .ok (some p) => if d' = d then l ++ [p] else l
  | _, _ => l

/-- What the listing of `d` has yielded since it was opened last. -/
def sinceOpen (d : Dir) (h : ScanHistory) : List Path := h.foldl (fun l x => onPass d l x.1 x.2) []

theorem sinceOpen_snoc {r : ScanReq} {v : ScanRep r} :
    sinceOpen d (h ++ [⟨r, v⟩]) = onPass d (sinceOpen d h) r v := List.foldl_append

namespace Pass

theorem eq_of_entryOf {x : (r : ScanReq) × ScanRep r} (hpass : Pass d h) (hx : x ∈ h)
    (hp : entryOf x.1 x.2 = some p) : x = ⟨.nextEntry d, .ok (some p)⟩ := by
  obtain ⟨v, g, rfl, hrest⟩ := hpass
  obtain ⟨r, w⟩ := x
  rcases List.mem_cons.mp hx with hx | hmem
  · cases hx
    cases hp
  · rcases hrest _ hmem with hr | ⟨r', hr⟩
    · cases hr
      rcases w with err | _ | q
      · cases hp
      · cases hp
      · cases hp
        rfl
    · cases hr
      cases hp

theorem mem_yielded (hpass : Pass d h) :
    p ∈ yielded h ↔ (⟨.nextEntry d, .ok (some p)⟩ : (r : ScanReq) × ScanRep r) ∈ h := by
  unfold yielded
  rw [List.mem_filterMap]
  constructor
  · rintro ⟨x, hx, hp⟩
    exact hpass.eq_of_entryOf hx hp ▸ hx
  · exact fun hx => ⟨_, hx, rfl⟩

/-- An entry that is yielded more than once is yielded again at some point. -/
theorem exists_again (hpass : Pass d h) (hp : 1 < (yielded h).count p) :
    ∃ h₁ h₂, h = h₁ ++ ⟨.nextEntry d, .ok (some p)⟩ :: h₂ ∧ p ∈ yielded h₁ := by
  have hcut : ∀ g : ScanHistory, 1 < (yielded g).count p →
      ∃ h₁ x h₂, g = h₁ ++ x :: h₂ ∧ entryOf x.1 x.2 = some p ∧ p ∈ yielded h₁ := by
    intro g
    induction g using List.reverseRecOn with
    | nil => simp [yielded]
    | append_singleton g x ih =>
      intro hg
      by_cases hagain : 1 < (yielded g).count p
      · obtain ⟨h₁, y, h₂, rfl, hy, hbefore⟩ := ih hagain
        exact ⟨h₁, y, h₂ ++ [x], by simp, hy, hbefore⟩
      · rw [yielded_append, List.count_append] at hg
        have hlast : 0 < (yielded [x]).count p := by omega
        have hx : p ∈ yielded [x] := List.count_pos_iff.mp hlast
        obtain ⟨y, hy, hyp⟩ := List.mem_filterMap.mp hx
        obtain rfl := List.mem_singleton.mp hy
        have hle : (yielded [y]).count p ≤ 1 :=
          List.count_le_length.trans (List.length_filterMap_le _ [y])
        exact ⟨g, y, [], rfl, hyp, List.count_pos_iff.mp (by omega)⟩
  obtain ⟨h₁, x, h₂, rfl, hx, hbefore⟩ := hcut h hp
  obtain rfl := hpass.eq_of_entryOf (List.mem_append_right h₁ List.mem_cons_self) hx
  exact ⟨h₁, h₂, rfl, hbefore⟩

/-- What a pass has yielded up to some point is what it has yielded since its opening. -/
theorem sinceOpen_eq (hpass : Pass d (h ++ g)) (hh : h ≠ []) {h₀ : ScanHistory} :
    sinceOpen d (h₀ ++ h) = yielded h := by
  obtain ⟨v, h', heq, hrest⟩ := hpass
  obtain ⟨y, h, rfl⟩ := List.exists_cons_of_ne_nil hh
  obtain ⟨rfl, rfl⟩ := List.cons.inj heq
  have hloop : ∀ (l : List Path) (h : ScanHistory),
      (∀ x ∈ h, x.1 = .nextEntry d ∨ ∃ r, x.1 = .queue r) →
      h.foldl (fun l x => onPass d l x.1 x.2) l = l ++ yielded h := by
    intro l h hall
    induction h generalizing l with
    | nil => exact (List.append_nil l).symm
    | cons x h ih =>
      rw [List.foldl_cons, ih _ fun y hy => hall y (List.mem_cons_of_mem _ hy)]
      obtain ⟨r, w⟩ := x
      rcases hall _ List.mem_cons_self with hr | ⟨r', hr⟩
      · cases hr
        rcases w with err | _ | q
        · rfl
        · rfl
        · show (if d = d then l ++ [q] else l) ++ yielded h = l ++ q :: yielded h
          rw [if_pos rfl, List.append_assoc, List.singleton_append]
      · cases hr
        rfl
  unfold sinceOpen
  rw [List.foldl_append, List.foldl_cons]
  show List.foldl _ (if d = d then [] else _) h = _
  rw [if_pos rfl, hloop [] h fun x hx => hrest x (List.mem_append_left _ hx), List.nil_append]
  rfl

end Pass

/-! ## Programs that fail just if a look does -/

section Succeeds

variable {α β ε : Type} {post : α → ScanHistory → Prop}

/-- Without faults of the listings, `p` fails just if a look does not find what it looks for, and
otherwise returns what `post` says. -/
def Succeeds (p : ScanAct (Except ε α)) (post : α → ScanHistory → Prop) : Prop :=
  ∀ h r, Follows p h r → AllFaultless h →
    (¬ AllFound h → ∃ err, r = .error err) ∧ (AllFound h → ∃ a, r = .ok a ∧ post a h)

theorem succeeds_pure {a : α} (ha : post a []) :
    Succeeds (pure (.ok a) : ScanAct (Except ε α)) post := by
  intro h r hf _
  obtain ⟨rfl, rfl⟩ := follows_pure hf
  exact ⟨fun hno => absurd allFound_nil hno, fun _ => ⟨a, rfl, ha⟩⟩

/-- A program goes on after a stage that finds all it looks for, and else fails with it. -/
theorem Succeeds.stage {p : ScanAct (Except ε α)} {f : Except ε α → ScanAct β} {fail : ε → β}
    {r : β} (hp : Succeeds p post) (hf : Follows (p >>= f) h r)
    (herr : ∀ err, f (.error err) = pure (fail err)) (hc : AllFaultless h) :
    (¬ AllFound h ∧ ∃ err, r = fail err) ∨ ∃ h₁ g a, h = h₁ ++ g ∧ AllFound h₁ ∧ post a h₁ ∧
      AllFaultless h₁ ∧ AllFaultless g ∧ Follows (f (.ok a)) g r := by
  obtain ⟨h₁, g, v, rfl, hv, hf⟩ := follows_bind hf
  obtain ⟨hfail, hok⟩ := hp h₁ v hv hc.left
  by_cases hall : AllFound h₁
  · obtain ⟨a, rfl, ha⟩ := hok hall
    exact Or.inr ⟨h₁, g, a, rfl, hall, ha, hc.left, hc.right, hf⟩
  · obtain ⟨err, rfl⟩ := hfail hall
    rw [herr] at hf
    exact Or.inl ⟨fun hyes => hall (allFound_append.mp hyes).1, err, (follows_pure hf).2⟩

theorem Succeeds.mono {p : ScanAct (Except ε α)} {post' : α → ScanHistory → Prop}
    (hp : Succeeds p post) (hpost : ∀ a h, post a h → post' a h) : Succeeds p post' := by
  intro h r hf hc
  obtain ⟨hfail, hok⟩ := hp h r hf hc
  refine ⟨hfail, fun hall => ?_⟩
  obtain ⟨a, hr, ha⟩ := hok hall
  exact ⟨a, hr, hpost a h ha⟩

/-- A call that looks at no file comes first. -/
theorem Succeeds.after {r : ScanReq} {f : ScanRep r → ScanAct (Except ε α)}
    (hfound : ∀ v, Found r v)
    (hf : ∀ v, Faultless r v → Succeeds (f v) fun a g => post a (⟨r, v⟩ :: g)) :
    Succeeds (Prog.request r >>= f) post := by
  intro h a hp hc
  obtain ⟨v, g, rfl, hg⟩ := follows_request_bind hp
  obtain ⟨hfail, hok⟩ := hf v (hc _ List.mem_cons_self) g a hg hc.tail
  refine ⟨fun hno => hfail fun hall => hno ?_, fun hall => hok (allFound_cons.mp hall).2⟩
  exact allFound_cons.mpr ⟨hfound v, hall⟩

/-- Two stages, of which either may fail. -/
theorem Succeeds.bind {δ γ : Type} {p : ScanAct (Except ε α)}
    {f : Except ε α → ScanAct (Except δ γ)} {fail : ε → δ} {post' : γ → ScanHistory → Prop}
    (hp : Succeeds p post) (herr : ∀ err, f (.error err) = pure (.error (fail err)))
    (hf : ∀ a h₁, AllFaultless h₁ → post a h₁ →
      Succeeds (f (.ok a)) fun b g => post' b (h₁ ++ g)) : Succeeds (p >>= f) post' := by
  intro h r hrun hc
  rcases hp.stage hrun herr hc with ⟨hno, err, rfl⟩ | ⟨h₁, g, a, rfl, hall₁, ha, hc₁, hc₂, hg⟩
  · exact ⟨fun _ => ⟨_, rfl⟩, fun hyes => absurd hyes hno⟩
  · obtain ⟨hfail, hok⟩ := hf a h₁ hc₁ ha g r hg hc₂
    refine ⟨fun hno => hfail fun hall₂ => hno ?_, fun hall => hok (allFound_append.mp hall).2⟩
    exact allFound_append.mpr ⟨hall₁, hall₂⟩

/-- The last stage only turns its result into another. -/
theorem Succeeds.last {δ γ : Type} {p : ScanAct (Except ε α)}
    {f : Except ε α → ScanAct (Except δ γ)} {fail : ε → δ} {g : α → γ}
    {post' : γ → ScanHistory → Prop} (hp : Succeeds p post)
    (herr : ∀ err, f (.error err) = pure (.error (fail err)))
    (hok : ∀ a, f (.ok a) = pure (.ok (g a)))
    (hpost : ∀ a h, AllFaultless h → post a h → post' (g a) h) : Succeeds (p >>= f) post' := by
  refine hp.bind herr fun a h₁ hc ha => ?_
  rw [hok]
  refine succeeds_pure ?_
  rw [List.append_nil]
  exact hpost a h₁ hc ha

end Succeeds

/-! ## One look -/

theorem succeeds_metadata :
    Succeeds (onQueue (metadata p)) fun v g => g = [⟨.queue (.metadata p), .ok v⟩] := by
  intro h r hf _
  obtain @⟨⟩ | @⟨_, _, w, t, _, ht⟩ := hf
  obtain ⟨rfl, rfl⟩ := follows_pure ht
  rcases r with err | v
  · exact ⟨fun _ => ⟨err, rfl⟩, fun hall => by simp [Found] at hall⟩
  · exact ⟨fun hno => absurd (by simp [Found]) hno, fun _ => ⟨v, rfl, rfl⟩⟩

theorem succeeds_readSidecar :
    Succeeds (onQueue (readSidecar p)) fun e g => g = [⟨.queue (.read p), .ok (.sidecar e)⟩] := by
  intro h r hf _
  obtain @⟨⟩ | @⟨_, _, w, t, _, ht⟩ := hf
  have hfail : ∀ {err : QueueError}, Follows (pure (.error err) :
      ScanAct (Except QueueError ClipQueueEntry)) t r → t = [] ∧ r = .error err := follows_pure
  rcases w with err | (e | data)
  · obtain ⟨rfl, rfl⟩ := hfail ht
    exact ⟨fun _ => ⟨_, rfl⟩, fun hall => by simp [Found] at hall⟩
  · obtain ⟨rfl, rfl⟩ := follows_pure ht
    exact ⟨fun hno => absurd (by simp [Found]) hno,
      fun _ => ⟨e, rfl, rfl⟩⟩
  · obtain ⟨rfl, rfl⟩ := hfail ht
    exact ⟨fun _ => ⟨_, rfl⟩, fun hall => by simp [Found] at hall⟩

/-! ## The loop over a listing -/

section Loop

variable {α : Type}

/-- What a loop takes from an entry, and the answers that it was computed from. -/
structure Looked (α : Type) where
  entry : Path
  value : α
  answers : ScanHistory

/-- The answers that come with an entry. -/
def Looked.history (d : Dir) (x : Looked α) : ScanHistory :=
  ⟨.nextEntry d, .ok (some x.entry)⟩ :: x.answers

/-- The loop over the listing of `d` has taken the entries `l`, and has then come to the end of the
listing or to its own bound. -/
def Loops (d : Dir) (l : List (Looked α)) (h : ScanHistory) : Prop :=
  h = l.flatMap (Looked.history d) ∨ h = l.flatMap (Looked.history d) ++ [⟨.nextEntry d, .ok none⟩]

theorem Loops.cons {l : List (Looked α)} (hl : Loops d l g) (x : Looked α) :
    Loops d (x :: l) (⟨.nextEntry d, .ok (some x.entry)⟩ :: (x.answers ++ g)) := by
  rcases hl with rfl | rfl
  · exact Or.inl rfl
  · exact Or.inr (by simp [Looked.history])

variable {l : List (Looked α)}

/-- A listing that was opened and gone through is one pass. -/
theorem Loops.pass (hl : Loops d l h) {v : Except IoError ℕ}
    (hlooks : ∀ x ∈ l, ∀ y ∈ x.answers, ∃ r, y.1 = .queue r) :
    Pass d (⟨.openDir d, v⟩ :: h) := by
  have hloop : ∀ y ∈ l.flatMap (Looked.history d), y.1 = .nextEntry d ∨ ∃ r, y.1 = .queue r := by
    intro y hy
    obtain ⟨x, hx, hy⟩ := List.mem_flatMap.mp hy
    rcases List.mem_cons.mp hy with rfl | hy
    · exact Or.inl rfl
    · exact Or.inr (hlooks x hx y hy)
  refine ⟨v, h, rfl, fun y hy => ?_⟩
  rcases hl with rfl | rfl
  · exact hloop y hy
  · rcases List.mem_append.mp hy with hy | hy
    · exact hloop y hy
    · obtain rfl := List.mem_singleton.mp hy
      exact Or.inl rfl

theorem Loops.yielded (hl : Loops d l h) (hlooks : ∀ x ∈ l, yielded x.answers = []) :
    yielded h = l.map (·.entry) := by
  have hloop : Perchstation.yielded (l.flatMap (Looked.history d)) = l.map (·.entry) := by
    clear hl
    induction l with
    | nil => rfl
    | cons x l ih =>
      rw [List.flatMap_cons, yielded_append, ih fun y hy => hlooks y (List.mem_cons_of_mem _ hy)]
      show x.entry :: Perchstation.yielded x.answers ++ _ = _
      rw [hlooks x List.mem_cons_self]
      rfl
  rcases hl with rfl | rfl
  · exact hloop
  · rw [yielded_append, hloop]
    exact List.append_nil _

theorem Loops.measured (hl : Loops d l h) : measured h = l.flatMap fun x => measured x.answers := by
  have hloop : Perchstation.measured (l.flatMap (Looked.history d)) =
      l.flatMap fun x => Perchstation.measured x.answers := by
    clear hl
    induction l with
    | nil => rfl
    | cons x l ih =>
      rw [List.flatMap_cons, measured_append, ih]
      rfl
  rcases hl with rfl | rfl
  · exact hloop
  · rw [measured_append, hloop]
    exact List.append_nil _

theorem Loops.readBack (hl : Loops d l h) : readBack h = l.flatMap fun x => readBack x.answers := by
  have hloop : Perchstation.readBack (l.flatMap (Looked.history d)) =
      l.flatMap fun x => Perchstation.readBack x.answers := by
    clear hl
    induction l with
    | nil => rfl
    | cons x l ih =>
      rw [List.flatMap_cons, readBack_append, ih]
      rfl
  rcases hl with rfl | rfl
  · exact hloop
  · rw [readBack_append, hloop]
    exact List.append_nil _

theorem Loops.told (hl : Loops d l h) (d' : Dir) :
    told d' h = (l.map fun x => told d' x.answers).sum := by
  have hloop : Perchstation.told d' (l.flatMap (Looked.history d)) =
      (l.map fun x => Perchstation.told d' x.answers).sum := by
    clear hl
    induction l with
    | nil => rfl
    | cons x l ih =>
      rw [List.flatMap_cons, told_append, ih, List.map_cons, List.sum_cons]
      exact congrArg (· + _) (Nat.zero_add _)
  rcases hl with rfl | rfl
  · exact hloop
  · rw [told_append, hloop]
    rfl

end Loop

/-! ## The loop of `sum_dir` -/

/-- The sum of the values, up to the greatest number of 64 bits. -/
def sumOf (start : ℕ) (l : List (Looked UInt64)) : ℕ :=
  min (start + (l.map fun x => x.value.toNat).sum) (2 ^ 64 - 1)

variable {value : Path → ScanAct (Except IoError UInt64)} {Gives : Looked UInt64 → Prop}

/-- The loop fails just if an entry does, and sums up the values of what the listing yields. -/
theorem succeeds_sumLoop (hvalue : ∀ p, Succeeds (value p) fun v g => Gives ⟨p, v, g⟩)
    {total : UInt64} : Succeeds (sumLoop d value n total) fun t h =>
      ∃ l, t.toNat = sumOf total.toNat l ∧ (∀ x ∈ l, x.entry.inDir d = true ∧ Gives x) ∧
        Loops d l h := by
  have hstop : ∀ {total : UInt64}, total.toNat = sumOf total.toNat [] := by
    intro total
    have hlt := total.toNat_lt
    simp only [sumOf, List.map_nil, List.sum_nil]
    omega
  induction n generalizing total with
  | zero => exact succeeds_pure ⟨[], hstop, by simp, Or.inl rfl⟩
  | succ n ih =>
    refine Succeeds.after (fun _ => trivial) fun v hv => ?_
    rcases hv with rfl | ⟨p, rfl, hin⟩
    · exact succeeds_pure ⟨[], hstop, by simp, Or.inr rfl⟩
    · refine (hvalue p).bind (fun _ => rfl) fun m h₁ _ hm => ih.mono ?_
      rintro t g ⟨l, ht, hgives, hl⟩
      refine ⟨⟨p, m, h₁⟩ :: l, ?_, List.forall_mem_cons.mpr ⟨⟨hin, hm⟩, hgives⟩, hl.cons _⟩
      rw [ht]
      simp only [sumOf, saturatingAdd64_toNat, List.map_cons, List.sum_cons]
      omega

/-- A missing directory sums up to nothing. -/
theorem succeeds_sumDir (hvalue : ∀ p, Succeeds (value p) fun v g => Gives ⟨p, v, g⟩) :
    Succeeds (sumDir d value) fun t h => ∃ v g l, h = ⟨.openDir d, v⟩ :: g ∧
      t.toNat = sumOf 0 l ∧ (∀ x ∈ l, x.entry.inDir d = true ∧ Gives x) ∧ Loops d l g := by
  refine Succeeds.after (fun _ => trivial) fun v hv => ?_
  rcases hv with rfl | ⟨n, rfl⟩
  · exact succeeds_pure ⟨_, [], [], rfl, rfl, by simp, Or.inl rfl⟩
  · refine (succeeds_sumLoop hvalue).mono ?_
    rintro t g ⟨l, ht, hgives, hl⟩
    exact ⟨_, g, l, rfl, ht, hgives, hl⟩

/-! ## The snapshot -/

/-- `count` is the number of the sidecars that the listing of `d` yields. -/
structure CountsListed (d : Dir) (count : UInt32) (h : ScanHistory) : Prop where
  pass : Pass d h
  count : count.toNat = min ((yielded h).filter (·.hasExt .json)).length (2 ^ 32 - 1)

/-- `bytes` is the sum of the lengths, up to the greatest number of 64 bits, that the looks tell of
the media that the listing of `d` yields. -/
structure SumsListed (d : Dir) (bytes : UInt64) (h : ScanHistory) : Prop where
  pass : Pass d h
  looks : (measured h).map Prod.fst = (yielded h).filter (·.hasExt .mp4)
  bytes : bytes.toNat = min ((measured h).map fun x => x.2.toNat).sum (2 ^ 64 - 1)

/-- `es` are the records read from the sidecars that the listing of `d` yields. -/
structure ReadsListed (d : Dir) (es : List ClipQueueEntry) (h : ScanHistory) : Prop where
  pass : Pass d h
  looks : (readBack h).map Prod.fst = (yielded h).filter (·.hasExt .json)
  records : es = (readBack h).map Prod.snd

/-- The queue's part of a snapshot adds up two listings of `pending/` and two of `inflight/`. -/
structure QueueCounts (h₁ h₂ h₃ h₄ : ScanHistory) (q : QueueSnapshot) : Prop where
  pending : CountsListed .pending q.pending h₁
  inflight : CountsListed .inflight q.inflight h₂
  bytes : ∃ bytes bytes', SumsListed .pending bytes h₃ ∧ SumsListed .inflight bytes' h₄ ∧
    q.bytesOnDisk = bytes + bytes'

/-- The answers to a snapshot: to its four listings of the queue, and to that of `delivered/`. -/
structure Listings where
  pending : ScanHistory
  inflight : ScanHistory
  pendingMedia : ScanHistory
  inflightMedia : ScanHistory
  delivered : ScanHistory

def Listings.history (x : Listings) : ScanHistory :=
  x.pending ++ (x.inflight ++ (x.pendingMedia ++ (x.inflightMedia ++ x.delivered)))

/-- A snapshot says what its listings have yielded. -/
structure Counts (x : Listings) (s : StatusSnapshot) : Prop where
  queue : QueueCounts x.pending x.inflight x.pendingMedia x.inflightMedia s.queue
  delivered : ∃ es, ReadsListed .delivered es x.delivered ∧
    s.lastSuccess = pickLastSuccess es ∧ s.lastFailure = pickLastFailure es ∧
      s.recent = buildRecent es

/-- The two sums of lengths do not overflow, or the build wraps around. -/
def ByteSumsFit (profile : Profile) (h : ScanHistory) : Prop :=
  profile = .release ∨
    min (told .pending h) (2 ^ 64 - 1) + min (told .inflight h) (2 ^ 64 - 1) < 2 ^ 64

theorem clampU32_toNat (count : UInt64) :
    (clampU32 count).toNat = min count.toNat (2 ^ 32 - 1) := by
  unfold clampU32
  split_ifs with hlt
  · rw [UInt32.toNat_ofNat_of_lt' hlt]
    omega
  · show 4294967295 = _
    omega

/-- What an entry gives to a count of sidecars. -/
def GivesCount (x : Looked UInt64) : Prop :=
  x.value = (if x.entry.hasExt .json then 1 else 0) ∧ x.answers = []

theorem sum_of_givesCount {l : List (Looked UInt64)} (hl : ∀ x ∈ l, GivesCount x) :
    (l.map fun x => x.value.toNat).sum =
      ((l.map (·.entry)).filter (·.hasExt .json)).length := by
  induction l with
  | nil => rfl
  | cons x l ih =>
    have hx := (hl x List.mem_cons_self).1
    rw [List.map_cons, List.sum_cons, ih fun y hy => hl y (List.mem_cons_of_mem _ hy), hx,
      List.map_cons]
    by_cases hj : x.entry.hasExt .json = true
    · rw [if_pos hj, List.filter_cons, if_pos hj, List.length_cons]
      exact Nat.add_comm 1 _
    · rw [if_neg hj, List.filter_cons, if_neg hj]
      exact Nat.zero_add _

/-- The sidecars counted are those that the listing yields. -/
theorem succeeds_countSidecars : Succeeds (countSidecars d) fun count h =>
    CountsListed d count h ∧ ∀ d', told d' h = 0 := by
  have hvalue : ∀ p : Path, Succeeds
      (pure (.ok (if p.hasExt .json then 1 else 0)) : ScanAct (Except IoError UInt64))
      fun v g => GivesCount ⟨p, v, g⟩ := fun p => succeeds_pure ⟨rfl, rfl⟩
  refine (succeeds_sumDir hvalue).last (fun _ => rfl) (fun _ => rfl) ?_
  rintro t h - ⟨v, g, l, rfl, ht, hgives, hl⟩
  have hquiet : ∀ x ∈ l, x.answers = [] := fun x hx => (hgives x hx).2.2
  refine ⟨⟨hl.pass fun x hx y hy => ?_, ?_⟩, fun d' => ?_⟩
  · rw [hquiet x hx] at hy
    cases hy
  · have hyield : yielded (⟨.openDir d, v⟩ :: g) = l.map (·.entry) :=
      hl.yielded fun x hx => by rw [hquiet x hx]; rfl
    rw [clampU32_toNat, ht, sumOf, sum_of_givesCount fun x hx => (hgives x hx).2, hyield]
    omega
  · rw [told_cons, hl.told]
    refine (Nat.zero_add _).trans (List.sum_eq_zero fun n hn => ?_)
    obtain ⟨x, hx, rfl⟩ := List.mem_map.mp hn
    rw [hquiet x hx]
    rfl

/-- What an entry gives to a sum of media lengths. -/
def GivesBytes (x : Looked UInt64) : Prop :=
  if x.entry.hasExt .mp4 then x.answers = [⟨.queue (.metadata x.entry), .ok x.value⟩]
  else x.value = 0 ∧ x.answers = []

theorem succeeds_mp4Bytes (p : Path) : Succeeds (mp4Bytes p) fun v g => GivesBytes ⟨p, v, g⟩ := by
  unfold mp4Bytes GivesBytes
  split_ifs with hx
  · exact succeeds_metadata
  · exact succeeds_pure ⟨rfl, rfl⟩

section GivesBytes

variable {x : Looked UInt64} {l : List (Looked UInt64)}

theorem GivesBytes.looks (hx : GivesBytes x) : ∀ y ∈ x.answers, ∃ r, y.1 = .queue r := by
  intro y hy
  unfold GivesBytes at hx
  split_ifs at hx with hm
  · rw [hx] at hy
    obtain rfl := List.mem_singleton.mp hy
    exact ⟨_, rfl⟩
  · rw [hx.2] at hy
    cases hy

theorem GivesBytes.yielded (hx : GivesBytes x) : yielded x.answers = [] := by
  unfold GivesBytes at hx
  split_ifs at hx with hm
  · rw [hx]
    rfl
  · rw [hx.2]
    rfl

/-- The length of a media is told, of any other entry none. -/
theorem GivesBytes.measured (hx : GivesBytes x) :
    measured x.answers = if x.entry.hasExt .mp4 then [(x.entry, x.value)] else [] := by
  unfold GivesBytes at hx
  split_ifs at hx ⊢ with hm
  · rw [hx]
    rfl
  · rw [hx.2]
    rfl

/-- What an entry of `d` tells is what it contributes. -/
theorem GivesBytes.told (hx : GivesBytes x) (hin : x.entry.inDir d = true) (d' : Dir) :
    told d' x.answers = if d' = d then x.value.toNat else 0 := by
  unfold GivesBytes at hx
  split_ifs at hx with hm
  · obtain ⟨c, hp⟩ := inDir_and_hasExt_iff.mp ⟨hin, hm⟩
    rw [hx, hp, told_cons, told_nil]
    simp [toldBy, Path.inDir, eq_comm]
  · rw [hx.1, hx.2, told_nil]
    simp

/-- The lengths told are those of the media among the entries. -/
theorem map_fst_measured (hl : ∀ x ∈ l, GivesBytes x) :
    (l.flatMap fun x => measured x.answers).map Prod.fst =
      (l.map (·.entry)).filter (·.hasExt .mp4) := by
  induction l with
  | nil => rfl
  | cons x l ih =>
    rw [List.flatMap_cons, List.map_append, ih fun y hy => hl y (List.mem_cons_of_mem _ hy),
      (hl x List.mem_cons_self).measured, List.map_cons, List.filter_cons]
    split_ifs
    · rfl
    · rfl

theorem sum_measured (hl : ∀ x ∈ l, GivesBytes x) :
    ((l.flatMap fun x => measured x.answers).map fun y => y.2.toNat).sum =
      (l.map fun x => x.value.toNat).sum := by
  induction l with
  | nil => rfl
  | cons x l ih =>
    have hx := hl x List.mem_cons_self
    rw [List.flatMap_cons, List.map_append, List.sum_append,
      ih fun y hy => hl y (List.mem_cons_of_mem _ hy), hx.measured, List.map_cons, List.sum_cons]
    congr 1
    by_cases hm : x.entry.hasExt .mp4 = true
    · rw [if_pos hm]
      exact Nat.add_zero _
    · unfold GivesBytes at hx
      rw [if_neg hm] at hx ⊢
      rw [hx.1]
      rfl

end GivesBytes

/-- The bytes are those of the media that the listing yields. -/
theorem succeeds_sumMp4Bytes : Succeeds (sumMp4Bytes d) fun bytes h =>
    SumsListed d bytes h ∧ bytes.toNat = min (told d h) (2 ^ 64 - 1) ∧
      ∀ d', d' ≠ d → told d' h = 0 := by
  refine (succeeds_sumDir succeeds_mp4Bytes).last (fun _ => rfl) (fun _ => rfl) ?_
  rintro t h - ⟨v, g, l, rfl, ht, hall, hl⟩
  have hgives : ∀ x ∈ l, GivesBytes x := fun x hx => (hall x hx).2
  have hlengths : measured (⟨.openDir d, v⟩ :: g) = l.flatMap fun x => measured x.answers :=
    hl.measured
  have hyield : yielded (⟨.openDir d, v⟩ :: g) = l.map (·.entry) :=
    hl.yielded fun x hx => (hgives x hx).yielded
  have htold : ∀ d', told d' (⟨.openDir d, v⟩ :: g) = (l.map fun x => told d' x.answers).sum :=
    fun d' => (Nat.zero_add _).trans (hl.told d')
  rw [sumOf, Nat.zero_add] at ht
  refine ⟨⟨hl.pass fun x hx => (hgives x hx).looks, ?_, ?_⟩, ?_, fun d' hd' => ?_⟩
  · rw [hlengths, hyield, map_fst_measured hgives]
  · rw [hlengths, sum_measured hgives, ht]
  · have hsum : told d (⟨.openDir d, v⟩ :: g) = (l.map fun x => x.value.toNat).sum := by
      rw [htold]
      congr 1
      exact List.map_congr_left fun x hx =>
        ((hgives x hx).told (hall x hx).1 d).trans (if_pos rfl)
    rw [hsum, ht]
  · rw [htold]
    refine List.sum_eq_zero fun n hn => ?_
    obtain ⟨x, hx, rfl⟩ := List.mem_map.mp hn
    exact ((hgives x hx).told (hall x hx).1 d').trans (if_neg hd')

theorem addU64_eq_some {profile : Profile} {a b t : UInt64} (ht : addU64 profile a b = some t) :
    t = a + b := by
  unfold addU64 at ht
  split_ifs at ht
  exact (Option.some.inj ht).symm

theorem exists_addU64 {profile : Profile} {a b : UInt64} :
    (∃ t, addU64 profile a b = some t) ↔
      a.toNat + b.toNat < 2 ^ 64 ∨ profile = .release := by
  unfold addU64
  split_ifs with hfits
  · exact iff_of_true ⟨_, rfl⟩ hfits
  · exact iff_of_false (by rintro ⟨t, ⟨⟩⟩) hfits

/-- The queue's part fails just if some media is not found, and panics just if the sums do not
fit. -/
theorem follows_queueSnapshot {profile : Profile} {r : Option (Except StatusError QueueSnapshot)}
    (hf : Follows (queueSnapshot profile) h r) (hc : AllFaultless h) :
    (¬ AllFound h → ∃ err, r = some (.error err)) ∧
      (AllFound h → ((∃ q, r = some (.ok q)) ↔ ByteSumsFit profile h) ∧
        (∀ q, r = some (.ok q) → ∃ h₁ h₂ h₃ h₄, h = h₁ ++ (h₂ ++ (h₃ ++ h₄)) ∧
          QueueCounts h₁ h₂ h₃ h₄ q) ∧
        ((¬ ∃ q, r = some (.ok q)) → r = none)) := by
  unfold queueSnapshot at hf
  rcases succeeds_countSidecars.stage hf (fun _ => rfl) hc with
    ⟨hno, err, rfl⟩ | ⟨h₁, g₁, count₁, rfl, hall₁, ⟨hcount₁, htold₁⟩, -, hc₁, hf⟩
  · exact ⟨fun _ => ⟨err, rfl⟩, fun hyes => absurd hyes hno⟩
  rcases succeeds_countSidecars.stage hf (fun _ => rfl) hc₁ with
    ⟨hno, err, rfl⟩ | ⟨h₂, g₂, count₂, rfl, hall₂, ⟨hcount₂, htold₂⟩, -, hc₂, hf⟩
  · exact ⟨fun _ => ⟨err, rfl⟩, fun hyes => absurd (allFound_append.mp hyes).2 hno⟩
  rcases succeeds_sumMp4Bytes.stage hf (fun _ => rfl) hc₂ with
    ⟨hno, err, rfl⟩ | ⟨h₃, g₃, bytes₃, rfl, hall₃, ⟨hsum₃, hn₃, hother₃⟩, -, hc₃, hf⟩
  · -- the sum over `pending/` meets media that is gone
    refine ⟨fun _ => ⟨err, rfl⟩, fun hyes => absurd ?_ hno⟩
    exact (allFound_append.mp (allFound_append.mp hyes).2).2
  rcases succeeds_sumMp4Bytes.stage hf (fun _ => rfl) hc₃ with
    ⟨hno, err, rfl⟩ | ⟨h₄, g₄, bytes₄, rfl, hall₄, ⟨hsum₄, hn₄, hother₄⟩, -, hc₄, hf⟩
  · refine ⟨fun _ => ⟨err, rfl⟩, fun hyes => absurd ?_ hno⟩
    exact (allFound_append.mp (allFound_append.mp (allFound_append.mp hyes).2).2).2
  obtain ⟨rfl, hr⟩ : g₄ = [] ∧ r = (addU64 profile bytes₃ bytes₄).map fun bytes =>
      .ok ⟨count₁, count₂, bytes⟩ := by
    dsimp only at hf
    cases hadd : addU64 profile bytes₃ bytes₄ with
    | none =>
      rw [hadd] at hf
      exact follows_pure hf
    | some bytes =>
      rw [hadd] at hf
      exact follows_pure hf
  have hfits : ByteSumsFit profile (h₁ ++ (h₂ ++ (h₃ ++ (h₄ ++ [])))) ↔
      bytes₃.toNat + bytes₄.toNat < 2 ^ 64 ∨ profile = .release := by
    simp only [ByteSumsFit, told_append, told_nil, htold₁, htold₂, hother₃ .inflight (by decide),
      hother₄ .pending (by decide), hn₃, hn₄, Nat.zero_add, Nat.add_zero]
    exact or_comm
  refine ⟨fun hno => absurd ?_ hno, fun _ => ⟨?_, fun q hq => ?_, fun hno => ?_⟩⟩
  · simp only [allFound_append, allFound_nil, and_true]
    exact ⟨hall₁, hall₂, hall₃, hall₄⟩
  · rw [hfits, ← exists_addU64, hr]
    simp
  · rw [hr] at hq
    obtain ⟨bytes, hadd, hq⟩ := Option.map_eq_some_iff.mp hq
    obtain rfl := Except.ok.inj hq
    rw [List.append_nil]
    exact ⟨h₁, h₂, h₃, h₄, rfl, hcount₁, hcount₂, bytes₃, bytes₄, hsum₃, hsum₄,
      addU64_eq_some hadd⟩
  · cases hadd : addU64 profile bytes₃ bytes₄ with
    | none => rw [hr, hadd, Option.map_none]
    | some bytes => exact absurd ⟨_, hr.trans (by rw [hadd, Option.map_some])⟩ hno

/-- What an entry gives to the records of `delivered/`. -/
def GivesRecord (x : Looked (Option ClipQueueEntry)) : Prop :=
  if x.entry.hasExt .json then
    ∃ e, x.value = some e ∧ x.answers = [⟨.queue (.read x.entry), .ok (.sidecar e)⟩]
  else x.value = none ∧ x.answers = []

section GivesRecord

variable {x : Looked (Option ClipQueueEntry)} {l : List (Looked (Option ClipQueueEntry))}

theorem GivesRecord.looks (hx : GivesRecord x) : ∀ y ∈ x.answers, ∃ r, y.1 = .queue r := by
  intro y hy
  unfold GivesRecord at hx
  split_ifs at hx with hj
  · obtain ⟨e, -, hx⟩ := hx
    rw [hx] at hy
    obtain rfl := List.mem_singleton.mp hy
    exact ⟨_, rfl⟩
  · rw [hx.2] at hy
    cases hy

theorem GivesRecord.yielded (hx : GivesRecord x) : yielded x.answers = [] := by
  unfold GivesRecord at hx
  split_ifs at hx with hj
  · obtain ⟨e, -, hx⟩ := hx
    rw [hx]
    rfl
  · rw [hx.2]
    rfl

theorem GivesRecord.told (hx : GivesRecord x) : told d x.answers = 0 := by
  unfold GivesRecord at hx
  split_ifs at hx with hj
  · obtain ⟨e, -, hx⟩ := hx
    rw [hx]
    rfl
  · rw [hx.2]
    rfl

/-- The record of a sidecar is read, of any other entry none. -/
theorem GivesRecord.readBack (hx : GivesRecord x) :
    readBack x.answers = x.value.toList.map (x.entry, ·) ∧
      (readBack x.answers).map Prod.fst = if x.entry.hasExt .json then [x.entry] else [] := by
  unfold GivesRecord at hx
  split_ifs at hx ⊢ with hj
  · obtain ⟨e, hv, hx⟩ := hx
    rw [hx, hv]
    exact ⟨rfl, rfl⟩
  · rw [hx.1, hx.2]
    exact ⟨rfl, rfl⟩

theorem map_fst_readBack (hl : ∀ x ∈ l, GivesRecord x) :
    (l.flatMap fun x => readBack x.answers).map Prod.fst =
      (l.map (·.entry)).filter (·.hasExt .json) := by
  induction l with
  | nil => rfl
  | cons x l ih =>
    rw [List.flatMap_cons, List.map_append, ih fun y hy => hl y (List.mem_cons_of_mem _ hy),
      (hl x List.mem_cons_self).readBack.2, List.map_cons, List.filter_cons]
    split_ifs
    · rfl
    · rfl

theorem map_snd_readBack (hl : ∀ x ∈ l, GivesRecord x) :
    (l.flatMap fun x => readBack x.answers).map Prod.snd = l.filterMap (·.value) := by
  induction l with
  | nil => rfl
  | cons x l ih =>
    rw [List.flatMap_cons, List.map_append, ih fun y hy => hl y (List.mem_cons_of_mem _ hy),
      (hl x List.mem_cons_self).readBack.1, List.filterMap_cons]
    cases x.value with
    | none => rfl
    | some e => rfl

end GivesRecord

/-- The loop over `delivered/` appends the records it reads. -/
theorem succeeds_deliveredLoop {es : List ClipQueueEntry} :
    Succeeds (deliveredLoop n es) fun es' h => ∃ l, es' = es ++ l.filterMap (·.value) ∧
      (∀ x ∈ l, GivesRecord x) ∧ Loops .delivered l h := by
  induction n generalizing es with
  | zero => exact succeeds_pure ⟨[], (List.append_nil es).symm, by simp, Or.inl rfl⟩
  | succ n ih =>
    refine Succeeds.after (fun _ => trivial) fun v hv => ?_
    rcases hv with rfl | ⟨p, rfl, -⟩
    · exact succeeds_pure ⟨[], (List.append_nil es).symm, by simp, Or.inr rfl⟩
    dsimp only
    split_ifs with hx
    · -- a sidecar is read, and its record kept
      refine succeeds_readSidecar.bind (fun _ => rfl) fun e h₁ _ he => ih.mono ?_
      rintro es' g ⟨l, rfl, hgives, hl⟩
      have hgive : GivesRecord ⟨p, some e, h₁⟩ := by
        unfold GivesRecord
        rw [if_pos hx]
        exact ⟨e, rfl, he⟩
      refine ⟨⟨p, some e, h₁⟩ :: l, ?_, List.forall_mem_cons.mpr ⟨hgive, hgives⟩, hl.cons _⟩
      rw [List.append_assoc, List.singleton_append]
      rfl
    · -- any other entry is passed over
      refine ih.mono ?_
      rintro es' g ⟨l, rfl, hgives, hl⟩
      have hgive : GivesRecord ⟨p, none, []⟩ := by
        unfold GivesRecord
        rw [if_neg hx]
        exact ⟨rfl, rfl⟩
      exact ⟨⟨p, none, []⟩ :: l, rfl, List.forall_mem_cons.mpr ⟨hgive, hgives⟩, hl.cons _⟩

theorem succeeds_loadDelivered : Succeeds loadDelivered fun es h =>
    ReadsListed .delivered es h ∧ ∀ d, told d h = 0 := by
  refine Succeeds.after (fun _ => trivial) fun v hv => ?_
  rcases hv with rfl | ⟨n, rfl⟩
  · exact succeeds_pure ⟨⟨⟨_, [], rfl, by simp⟩, rfl, rfl⟩, fun d => rfl⟩
  · refine succeeds_deliveredLoop.mono ?_
    rintro es g ⟨l, rfl, hgives, hl⟩
    have hread : readBack (⟨.openDir .delivered, .ok n⟩ :: g) =
        l.flatMap fun x => readBack x.answers := hl.readBack
    have hyield : yielded (⟨.openDir .delivered, .ok n⟩ :: g) = l.map (·.entry) :=
      hl.yielded fun x hx => (hgives x hx).yielded
    refine ⟨⟨hl.pass fun x hx => (hgives x hx).looks, ?_, ?_⟩, fun d => ?_⟩
    · rw [hread, hyield, map_fst_readBack hgives]
    · rw [hread, map_snd_readBack hgives, List.nil_append]
    · rw [told_cons, hl.told]
      refine (Nat.zero_add _).trans (List.sum_eq_zero fun n hn => ?_)
      obtain ⟨x, hx, rfl⟩ := List.mem_map.mp hn
      exact (hgives x hx).told

/-- A snapshot succeeds just if every look has found its file, the sums fit and the enrollment could
be read; it counts what its answers tell. -/
theorem follows_snapshot {profile : Profile}
    {identity : Option (Except IdentityError StationIdentity)} {now : DateTime}
    {capture : Option CaptureState} {r : Option (Except StatusError StatusSnapshot)}
    (hf : Follows (snapshot profile identity now capture) h r) (hc : AllFaultless h) :
    ((∃ s, r = some (.ok s)) ↔
      AllFound h ∧ ByteSumsFit profile h ∧ ∃ e, enrollmentSnapshot identity now = .ok e) ∧
    ∀ s, r = some (.ok s) → ∃ x : Listings, h = x.history ∧ Counts x s := by
  unfold snapshot at hf
  cases he : enrollmentSnapshot identity now with
  | error err =>
    rw [he] at hf
    obtain ⟨rfl, rfl⟩ := follows_pure hf
    simp
  | ok enrollment =>
    rw [he] at hf
    obtain ⟨h₁, g₁, v₁, rfl, hv₁, hf⟩ := follows_bind hf
    obtain ⟨hfail₁, hok₁⟩ := follows_queueSnapshot hv₁ hc.left
    by_cases hall₁ : AllFound h₁
    swap
    · obtain ⟨err, rfl⟩ := hfail₁ hall₁
      obtain ⟨rfl, rfl⟩ := follows_pure hf
      simp [hall₁]
    obtain ⟨hfits, hcounts, hpanic⟩ := hok₁ hall₁
    by_cases hfit : ByteSumsFit profile h₁
    swap
    · obtain rfl := hpanic (mt hfits.mp hfit)
      obtain ⟨rfl, rfl⟩ := follows_pure hf
      simp [hfit]
    obtain ⟨q, rfl⟩ := hfits.mpr hfit
    rcases succeeds_loadDelivered.stage hf (fun _ => rfl) hc.right with
      ⟨hno, err, rfl⟩ | ⟨h₂, g₂, es, rfl, hall₂, ⟨hes, htold₂⟩, -, -, hf⟩
    · simp [hno]
    obtain ⟨rfl, rfl⟩ := follows_pure hf
    rw [List.append_nil]
    have hfit' : ByteSumsFit profile (h₁ ++ h₂) := by
      simp only [ByteSumsFit, told_append, htold₂, Nat.add_zero]
      exact hfit
    refine ⟨⟨fun _ => ⟨allFound_append.mpr ⟨hall₁, hall₂⟩, hfit', enrollment, rfl⟩,
      fun _ => ⟨_, rfl⟩⟩, fun s hs => ?_⟩
    obtain rfl := Except.ok.inj (Option.some.inj hs)
    obtain ⟨a, b, c, d, rfl, hq⟩ := hcounts q rfl
    refine ⟨⟨a, b, c, d, h₂⟩, ?_, hq, es, hes, rfl, rfl, rfl⟩
    simp only [Listings.history, List.append_assoc]

/-! ## What a snapshot asks for -/

/-- A snapshot lists directories, and looks at files without changing them. -/
def ScanReq.IsLook : ScanReq → Prop
  | .queue (.metadata _) | .queue (.read _) | .openDir _ | .nextEntry _ => True
  | .queue _ => False

theorem within_sumDir {value : Path → ScanAct (Except IoError UInt64)}
    (hvalue : ∀ p, Within ScanReq.IsLook (value p)) : Within ScanReq.IsLook (sumDir d value) := by
  have hloop : ∀ n total, Within ScanReq.IsLook (sumLoop d value n total) := by
    intro n
    induction n with
    | zero => exact fun total => within_pure _
    | succ n ih =>
      intro total
      unfold sumLoop
      refine Within.bind (within_request trivial) fun v => ?_
      rcases v with err | _ | p
      · exact within_pure _
      · exact within_pure _
      · refine Within.bind (hvalue p) fun v => ?_
        cases v with
        | error err => exact within_pure _
        | ok m => exact ih _
  unfold sumDir
  refine Within.bind (within_request trivial) fun v => ?_
  split
  · exact within_pure _
  · exact within_pure _
  · exact hloop _ _

theorem within_countSidecars : Within ScanReq.IsLook (countSidecars d) := by
  refine Within.bind (within_sumDir fun p => within_pure _) fun v => ?_
  cases v with
  | error err => exact within_pure _
  | ok count => exact within_pure _

theorem within_sumMp4Bytes : Within ScanReq.IsLook (sumMp4Bytes d) := by
  have hbytes : ∀ p, Within ScanReq.IsLook (mp4Bytes p) := by
    intro p
    unfold mp4Bytes
    split_ifs
    · exact ⟨trivial, fun v => within_pure v⟩
    · exact within_pure _
  refine Within.bind (within_sumDir hbytes) fun v => ?_
  cases v with
  | error err => exact within_pure _
  | ok bytes => exact within_pure _

theorem within_queueSnapshot {profile : Profile} :
    Within ScanReq.IsLook (queueSnapshot profile) := by
  refine Within.bind within_countSidecars fun v => ?_
  rcases v with err | pending
  · exact within_pure _
  refine Within.bind within_countSidecars fun v => ?_
  rcases v with err | inflight
  · exact within_pure _
  refine Within.bind within_sumMp4Bytes fun v => ?_
  rcases v with err | pendingBytes
  · exact within_pure _
  refine Within.bind within_sumMp4Bytes fun v => ?_
  rcases v with err | inflightBytes
  · exact within_pure _
  dsimp only
  split
  · exact within_pure _
  · exact within_pure _

theorem within_loadDelivered : Within ScanReq.IsLook loadDelivered := by
  have hread : ∀ p, Within ScanReq.IsLook (onQueue (readSidecar p)) := by
    refine fun p => ⟨trivial, fun v => ?_⟩
    rcases v with err | e | data
    · exact within_pure _
    · exact within_pure _
    · exact within_pure _
  have hloop : ∀ n es, Within ScanReq.IsLook (deliveredLoop n es) := by
    intro n
    induction n with
    | zero => exact fun es => within_pure _
    | succ n ih =>
      intro es
      unfold deliveredLoop
      refine Within.bind (within_request trivial) fun v => ?_
      rcases v with err | _ | p
      · exact within_pure _
      · exact within_pure _
      · dsimp only
        split_ifs
        · refine Within.bind (hread p) fun v => ?_
          cases v with
          | error err => exact within_pure _
          | ok e => exact ih _
        · exact ih _
  refine Within.bind (within_request trivial) fun v => ?_
  split
  · exact within_pure _
  · exact within_pure _
  · exact hloop _ _

theorem within_snapshot {profile : Profile}
    {identity : Option (Except IdentityError StationIdentity)} {now : DateTime}
    {capture : Option CaptureState} :
    Within ScanReq.IsLook (snapshot profile identity now capture) := by
  unfold snapshot
  split
  · exact within_pure _
  refine Within.bind within_queueSnapshot fun v => ?_
  rcases v with _ | err | queue
  · exact within_pure _
  · exact within_pure _
  refine Within.bind within_loadDelivered fun v => ?_
  cases v with
  | error err => exact within_pure _
  | ok delivered => exact within_pure _

end Perchstation
