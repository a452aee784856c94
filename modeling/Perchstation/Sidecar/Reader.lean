import Perchstation.Lib.Rfc3339
import Perchstation.Sidecar.Codec

/-!
# Sidecar reader — what `read_sidecar` makes of a file (`queue/store.rs`)

A record that is written whole is read back; one that is cut off anywhere is refused, since its outer
bracket is still open.  `serde_json::from_slice` is a parameter with what it documents, `Documented`.
-/

namespace Perchstation

/-- `serde_json::from_slice::<ClipQueueEntry>`: it reads the JSON texts of records, up to its recursion
limit, and refuses bytes that end inside a value. -/
structure Documented (forms : TextForms)
    (fromSlice : List UInt8 → Except String ClipQueueEntry) : Prop where
  reads : ∀ t j e, IsText t j → j.height < 128 → ClipQueueEntry.deserialize forms j = some e →
    fromSlice (Utf8.encode t) = .ok e
  refuses : ∀ b, Unclosed b → ∃ message, fromSlice b = .error message

/-! ## What is written is JSON -/

theorem head_toDigits : ∀ n : ℕ, n ≠ 0 → (Nat.toDigits 10 n).head? ≠ some '0' := by
  intro n
  induction n using Nat.strongRecOn with
  | ind n ih =>
    intro hn h
    rw [Nat.toDigits_eq_if (by decide)] at h
    split_ifs at h with hlt
    · have hdigit : n.digitChar = '0' := Option.some.inj h
      have hvalue : Nat.ofDigitChars 10 (Nat.toDigits 10 n) 0 = n := Nat.ofDigitChars_ten_toDigits
      rw [Nat.toDigits_of_lt_base hlt, hdigit] at hvalue
      exact hn hvalue.symm
    · rw [List.head?_append_of_ne_nil _ Nat.toDigits_ne_nil] at h
      exact ih (n / 10) (by omega) (by omega) h

theorem isInt_toDigits (n : ℕ) : IsInt (Nat.toDigits 10 n) := by
  refine ⟨⟨Nat.toDigits_ne_nil, fun c hc => ?_⟩, fun h => ?_⟩
  · exact Nat.isDigit_of_mem_toDigits (by decide) (by decide) hc
  · by_cases hn : n = 0
    · rw [hn]
      rfl
    · exact absurd h (head_toDigits n hn)

theorem scalars_numberOf (n : ℕ) : (numberOf n).Scalars := by
  have hnumber : IsScalar ([] ++ Nat.toDigits 10 n ++ [] ++ []) :=
    .number (Or.inl rfl) (isInt_toDigits n) (Or.inl rfl) (Or.inl rfl)
  show IsScalar (Nat.toDigits 10 n)
  simpa using hnumber

/-- What holds of the value of every slot. -/
def ForSlots (P : Json → Prop) (slots : List (Text × Option Json)) : Prop :=
  ∀ slot ∈ slots, ∀ j ∈ slot.2, P j

section Slots

variable {P : Json → Prop} {slots : List (Text × Option Json)} {n : ℕ}

theorem scalarFields_present (h : ForSlots Json.Scalars slots) : ScalarFields (present slots) := by
  induction slots with
  | nil => trivial
  | cons slot rest ih =>
    have hrest := ih fun slot hs => h slot (List.mem_cons_of_mem _ hs)
    have hslot := h slot List.mem_cons_self
    rw [present_cons]
    obtain ⟨key, value⟩ := slot
    cases value with
    | none => exact hrest
    | some j => exact ⟨hslot j rfl, hrest⟩

theorem heightFields_present (h : ForSlots (fun j => j.height ≤ n) slots) :
    heightFields (present slots) ≤ n := by
  induction slots with
  | nil => exact Nat.zero_le n
  | cons slot rest ih =>
    have hrest := ih fun slot hs => h slot (List.mem_cons_of_mem _ hs)
    have hslot := h slot List.mem_cons_self
    rw [present_cons]
    obtain ⟨key, value⟩ := slot
    cases value with
    | none => exact hrest
    | some j => exact Nat.max_le.mpr ⟨hslot j rfl, hrest⟩

theorem LastError.forSlots (hstring : ∀ s, P (stringOf s)) (hnumber : ∀ n, P (numberOf n))
    (e : LastError) : ForSlots P e.slots := by
  simp [ForSlots, LastError.slots, hstring, hnumber]

theorem LastError.scalars_serialize (e : LastError) : e.serialize.Scalars :=
  scalarFields_present (forSlots (fun _ => trivial) scalars_numberOf e)

theorem LastError.height_serialize (e : LastError) : e.serialize.height ≤ 1 :=
  Nat.succ_le_succ (heightFields_present (forSlots (fun _ => Nat.le_refl 0) (fun _ => Nat.le_refl 0) e))

end Slots

section Record

variable {forms : TextForms} {fromSlice : List UInt8 → Except String ClipQueueEntry} {e : ClipQueueEntry}
  {p : List UInt8}

namespace ClipQueueEntry

theorem forSlots {P : Json → Prop} (hstring : ∀ s, P (.str s)) (hnumber : ∀ n, P (numberOf n))
    (herror : ∀ e : LastError, P e.serialize) (e : ClipQueueEntry) : ForSlots P (e.slots forms) := by
  simp [ForSlots, slots, stringOf, timeOf, uuidOf, hstring, hnumber, herror]

theorem scalars_serialize (e : ClipQueueEntry) : (e.serialize forms).Scalars :=
  scalarFields_present (forSlots (fun _ => trivial) scalars_numberOf LastError.scalars_serialize e)

theorem height_serialize (e : ClipQueueEntry) : (e.serialize forms).height ≤ 2 :=
  Nat.succ_le_succ (heightFields_present
    (forSlots (fun _ => Nat.zero_le 1) (fun _ => Nat.zero_le 1) LastError.height_serialize e))

theorem isText_serialize (e : ClipQueueEntry) :
    IsText (pretty 0 (e.serialize forms)) (e.serialize forms) :=
  isText_pretty (scalars_serialize e)

end ClipQueueEntry

theorem fromSlice_sidecarBytes (hforms : forms.Faithful) (hread : Documented forms fromSlice)
    (e : ClipQueueEntry) : fromSlice (sidecarBytes forms e) = .ok e :=
  hread.reads _ _ _ e.isText_serialize (Nat.lt_of_le_of_lt e.height_serialize (by decide))
    (e.deserialize_serialize hforms)

theorem sidecarBytes_ne_nil (e : ClipQueueEntry) : sidecarBytes forms e ≠ [] :=
  fun h => not_unclosed_of_isText (@ClipQueueEntry.isText_serialize forms e) (Or.inl h)

/-- What was cut off is refused. -/
theorem refused_of_cut (hread : Documented forms fromSlice) (hp : p <+: sidecarBytes forms e)
    (hpart : p ≠ sidecarBytes forms e) : ∃ message, fromSlice p = .error message :=
  hread.refuses p (unclosed_of_cut (isValue_pretty 0 _ e.scalars_serialize) hp hpart)

/-- A record is read back if it is written whole, and refused wherever its text is cut off. -/
theorem sidecar_whole_or_refused (hforms : forms.Faithful) (hread : Documented forms fromSlice)
    (hp : p <+: sidecarBytes forms e) :
    (p = sidecarBytes forms e ∧ fromSlice p = .ok e) ∨
      (p ≠ sidecarBytes forms e ∧ ∃ message, fromSlice p = .error message) := by
  by_cases hpart : p = sidecarBytes forms e
  · subst hpart
    exact Or.inl ⟨rfl, fromSlice_sidecarBytes hforms hread e⟩
  · exact Or.inr ⟨hpart, refused_of_cut hread hp hpart⟩

end Record

/-! ### A reader -/

open Classical in
/-- The reader that does what is documented and refuses all else. -/
noncomputable def leastReader (forms : TextForms) (b : List UInt8) : Except String ClipQueueEntry :=
  if h : ∃ e t j, IsText t j ∧ j.height < 128 ∧ ClipQueueEntry.deserialize forms j = some e ∧
      b = Utf8.encode t then
    .ok h.choose
  else .error "EOF while parsing an object"

/-- Bytes are the text of one record at most. -/
theorem documented_leastReader (forms : TextForms) : Documented forms (leastReader forms) where
  reads t j e ht hheight he := by
    have hex : ∃ e' t' j', IsText t' j' ∧ j'.height < 128 ∧
        ClipQueueEntry.deserialize forms j' = some e' ∧ Utf8.encode t = Utf8.encode t' :=
      ⟨e, t, j, ht, hheight, he, rfl⟩
    obtain ⟨t', j', ht', -, he', heq⟩ := hex.choose_spec
    rw [leastReader, dif_pos hex]
    obtain rfl := Utf8.encode_injective heq
    obtain rfl := isText_unique ht ht'
    rw [he] at he'
    rw [← Option.some.inj he']
  refuses b hb := by
    rw [leastReader, dif_neg]
    · exact ⟨_, rfl⟩
    · rintro ⟨e, t, j, ht, -, -, rfl⟩
      exact not_unclosed_of_isText ht hb

namespace TextForms

/-- The forms with this writing, read back by what was written. -/
noncomputable def ofWriting (showTime : DateTime → Text) (showUuid : Uuid → Text) : TextForms where
  showTime := showTime
  parseTime := Function.partialInv showTime
  showUuid := showUuid
  parseUuid := Function.partialInv showUuid

theorem faithful_ofWriting {showTime : DateTime → Text} {showUuid : Uuid → Text}
    (htime : Function.Injective showTime) (huuid : Function.Injective showUuid) :
    (ofWriting showTime showUuid).Faithful where
  time := Function.partialInv_left htime
  uuid := Function.partialInv_left huuid

/-- Instants as `chrono` writes them; the writing of an id is left simple. -/
noncomputable def rfc3339 : TextForms :=
  ofWriting (fun t => Rfc3339.text t.timestamp t.subsecNanos) fun id => Nat.toDigits 10 id.toNat

theorem faithful_rfc3339 : rfc3339.Faithful := by
  refine faithful_ofWriting (fun t t' h => ?_) fun id id' h => ?_
  · have hnanos : ∀ u : DateTime, u.subsecNanos < 1000000000 := by
      intro u
      unfold DateTime.subsecNanos nanosPerSec
      omega
    obtain ⟨hsecs, hsub⟩ := Rfc3339.text_injective (hnanos t) (hnanos t') h
    apply Subtype.ext
    unfold DateTime.timestamp nanosPerSec at hsecs
    unfold DateTime.subsecNanos nanosPerSec at hsub
    omega
  · have hvalue := congrArg (fun l => Nat.ofDigitChars 10 l 0) h
    simp only [Nat.ofDigitChars_ten_toDigits] at hvalue
    exact BitVec.eq_of_toNat_eq hvalue

end TextForms

/-- The record of a clip of the year 1970. -/
def earlyRecord : ClipQueueEntry :=
  .new "c1" (.ofSecs 0 DateTime.epoch_inRange) (.ofSecs 0 DateTime.epoch_inRange) 1

/-- A record of which the last byte is missing is refused. -/
theorem sidecar_whole_or_refused_early :
    ∃ message, leastReader .rfc3339 (sidecarBytes .rfc3339 earlyRecord).dropLast = .error message := by
  rcases sidecar_whole_or_refused TextForms.faithful_rfc3339 (documented_leastReader .rfc3339)
    (List.dropLast_prefix (sidecarBytes .rfc3339 earlyRecord)) with ⟨hwhole, -⟩ | ⟨-, hrefused⟩
  · have hpos := List.length_pos_of_ne_nil (@sidecarBytes_ne_nil .rfc3339 earlyRecord)
    have hlen := congrArg List.length hwhole
    rw [List.length_dropLast] at hlen
    omega
  · exact hrefused

end Perchstation
