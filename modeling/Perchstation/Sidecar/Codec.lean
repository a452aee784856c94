import Perchstation.Sidecar.JsonUnique
import Perchstation.World

/-!
# Sidecar codec — the record of a clip as JSON (`queue/mod.rs`)

`serialize` is what `serde` derives for `ClipQueueEntry`, and `deserialize` what it derives for objects
whose variants are texts: fields in the order of the struct, those that are `None` left out, unknown
fields passed over, a field given twice refused.
`sidecarBytes` is `serde_json::to_vec_pretty`.  The texts of instants and ids are `chrono`'s and
`uuid`'s, the parameter `TextForms`.
-/

namespace Perchstation

/-- How `chrono` and `uuid` write their values and read them. -/
structure TextForms where
  showTime : DateTime → Text
  parseTime : Text → Option DateTime
  showUuid : Uuid → Text
  parseUuid : Text → Option Uuid

/-- What is written is read back. -/
structure TextForms.Faithful (forms : TextForms) : Prop where
  time : ∀ t, forms.parseTime (forms.showTime t) = some t
  uuid : ∀ id, forms.parseUuid (forms.showUuid id) = some id

/-! ## Writing -/

theorem jsonPlain_toDigits (n : ℕ) : JsonPlain (Nat.toDigits 10 n) := by
  intro c hc
  have hdigit := Nat.isDigit_of_mem_toDigits (by decide) (by decide) hc
  rintro (rfl | rfl | hlow)
  · cases hdigit
  · cases hdigit
  · simp only [Char.isDigit, Bool.and_eq_true, decide_eq_true_eq] at hdigit
    have h48 : 48 ≤ c.toNat := hdigit.1
    omega

def numberOf (n : ℕ) : Json := .bare ⟨Nat.toDigits 10 n, jsonPlain_toDigits n⟩

def stringOf (s : String) : Json := .str s.toList

/-- The fields that are there. -/
def present (slots : List (Text × Option Json)) : List (Text × Json) :=
  slots.filterMap fun slot => slot.2.map fun value => (slot.1, value)

def LastError.slots (e : LastError) : List (Text × Option Json) :=
  [("kind".toList, some (stringOf e.kind)),
    ("status".toList, e.status.map fun status => numberOf status.toNat),
    ("message".toList, some (stringOf e.message))]

def LastError.serialize (e : LastError) : Json := .obj (present e.slots)

def Outcome.variant : Outcome → String
  | .delivered => "Delivered"
  | .undeliverable => "Undeliverable"

def ClassifyTaskStatus.variant : ClassifyTaskStatus → String
  | .prepared => "Prepared"
  | .queued => "Queued"
  | .processing => "Processing"
  | .success => "Success"
  | .failed => "Failed"
  | .unknown => "Unknown"

section Forms

variable (forms : TextForms)

def timeOf (t : DateTime) : Json := .str (forms.showTime t)

def uuidOf (id : Uuid) : Json := .str (forms.showUuid id)

namespace ClipQueueEntry

def slots (e : ClipQueueEntry) : List (Text × Option Json) :=
  [("clip_id".toList, some (stringOf e.clipId)),
    ("captured_at".toList, some (timeOf forms e.capturedAt)),
    ("enqueued_at".toList, some (timeOf forms e.enqueuedAt)),
    ("byte_size".toList, some (numberOf e.byteSize.toNat)),
    ("attempts".toList, some (numberOf e.attempts.toNat)),
    ("first_attempt_at".toList, e.firstAttemptAt.map (timeOf forms)),
    ("last_attempt_at".toList, e.lastAttemptAt.map (timeOf forms)),
    ("last_error".toList, e.lastError.map LastError.serialize),
    ("next_attempt_after".toList, e.nextAttemptAfter.map (timeOf forms)),
    ("outcome".toList, e.outcome.map fun o => stringOf o.variant),
    ("classify_task_id".toList, e.classifyTaskId.map (uuidOf forms)),
    ("delivered_at".toList, e.deliveredAt.map (timeOf forms)),
    ("last_classify_status".toList, e.lastClassifyStatus.map fun s => stringOf s.variant),
    ("classify_lost_at".toList, e.classifyLostAt.map (timeOf forms))]

def serialize (e : ClipQueueEntry) : Json := .obj (present (slots forms e))

end ClipQueueEntry

/-- `serde_json::to_vec_pretty`. -/
def sidecarBytes (e : ClipQueueEntry) : List UInt8 :=
  Utf8.encode (pretty 0 (e.serialize forms))

end Forms

/-! ## Reading -/

def Json.isNull : Json → Bool
  | .bare t => t.text = "null".toList
  | _ => false

/-- The values given for the field. -/
def valuesOf (key : Text) (fields : List (Text × Json)) : List Json :=
  (fields.filter fun field => field.1 = key).map Prod.snd

/-- A field that must be there. -/
def requiredField {α : Type} (fields : List (Text × Json)) (key : Text) (read : Json → Option α) :
    Option α :=
  match valuesOf key fields with
  | [value] => read value
  | _ => none

/-- A field with `#[serde(default)]`. -/
def defaultField {α : Type} (fields : List (Text × Json)) (key : Text) (read : Json → Option α) :
    Option (Option α) :=
  match valuesOf key fields with
  | [] => some none
  | [value] => if value.isNull then some none else (read value).map some
  | _ => none

def readText : Json → Option Text
  | .str t => some t
  | _ => none

def readString (j : Json) : Option String := (readText j).map String.ofList

/-- An unsigned integer below the bound. -/
def readNat (bound : ℕ) : Json → Option ℕ
  | .bare t =>
    if t.text.all Char.isDigit = true ∧ Nat.ofDigitChars 10 t.text 0 < bound then
      some (Nat.ofDigitChars 10 t.text 0)
    else none
  | _ => none

def readUInt16 (j : Json) : Option UInt16 := (readNat (2 ^ 16) j).map UInt16.ofNat
def readUInt32 (j : Json) : Option UInt32 := (readNat (2 ^ 32) j).map UInt32.ofNat
def readUInt64 (j : Json) : Option UInt64 := (readNat (2 ^ 64) j).map UInt64.ofNat

def readOutcome (j : Json) : Option Outcome := do
  let t ← readText j
  [Outcome.delivered, .undeliverable].find? fun o => o.variant.toList = t

/-- With `#[serde(other)]` on `Unknown`. -/
def readStatus (j : Json) : Option ClassifyTaskStatus := do
  let t ← readText j
  let known := [ClassifyTaskStatus.prepared, .queued, .processing, .success, .failed]
  return (known.find? fun s => s.variant.toList = t).getD .unknown

def LastError.deserialize : Json → Option LastError
  | .obj fields => do
    let kind ← requiredField fields "kind".toList readString
    let status ← defaultField fields "status".toList readUInt16
    let message ← requiredField fields "message".toList readString
    return ⟨kind, status, message⟩
  | _ => none

section Forms

variable (forms : TextForms)

def readTime (j : Json) : Option DateTime := (readText j).bind forms.parseTime

def readUuid (j : Json) : Option Uuid := (readText j).bind forms.parseUuid

/-- A record as an object with its variants as texts, which is all the queue writes.  The derived reader
takes more: a record as an array of its fields, and a variant as an object with a `null`. -/
def ClipQueueEntry.deserialize : Json → Option ClipQueueEntry
  | .obj fields => do
    let clipId ← requiredField fields "clip_id".toList readString
    let capturedAt ← requiredField fields "captured_at".toList (readTime forms)
    let enqueuedAt ← requiredField fields "enqueued_at".toList (readTime forms)
    let byteSize ← requiredField fields "byte_size".toList readUInt64
    let attempts ← requiredField fields "attempts".toList readUInt32
    let firstAttemptAt ← defaultField fields "first_attempt_at".toList (readTime forms)
    let lastAttemptAt ← defaultField fields "last_attempt_at".toList (readTime forms)
    let lastError ← defaultField fields "last_error".toList LastError.deserialize
    let nextAttemptAfter ← defaultField fields "next_attempt_after".toList (readTime forms)
    let outcome ← defaultField fields "outcome".toList readOutcome
    let classifyTaskId ← defaultField fields "classify_task_id".toList (readUuid forms)
    let deliveredAt ← defaultField fields "delivered_at".toList (readTime forms)
    let lastClassifyStatus ← defaultField fields "last_classify_status".toList readStatus
    let classifyLostAt ← defaultField fields "classify_lost_at".toList (readTime forms)
    return ⟨clipId, capturedAt, enqueuedAt, byteSize, attempts, firstAttemptAt, lastAttemptAt,
      lastError, nextAttemptAfter, outcome, classifyTaskId, deliveredAt, lastClassifyStatus,
      classifyLostAt⟩
  | _ => none

end Forms

/-! ## What is written is read back -/

section Present

variable {α : Type} {slots : List (Text × Option Json)} {key : Text} {o : Option Json}

theorem present_cons (slot : Text × Option Json) (rest : List (Text × Option Json)) :
    present (slot :: rest) = (slot.2.map fun value => (slot.1, value)).toList ++ present rest := by
  unfold present
  cases h : slot.2 <;> simp [h]

theorem valuesOf_append (fields fields' : List (Text × Json)) :
    valuesOf key (fields ++ fields') = valuesOf key fields ++ valuesOf key fields' := by
  simp [valuesOf]

theorem valuesOf_present_of_notMem (h : ∀ slot ∈ slots, slot.1 ≠ key) :
    valuesOf key (present slots) = [] := by
  induction slots with
  | nil => rfl
  | cons slot rest ih =>
    have hne := h slot List.mem_cons_self
    rw [present_cons, valuesOf_append, ih fun slot hs => h slot (List.mem_cons_of_mem _ hs),
      List.append_nil]
    cases slot.2 <;> simp [valuesOf, hne]

/-- Each field is given at most once. -/
theorem valuesOf_present (hnd : (slots.map Prod.fst).Nodup) (hmem : (key, o) ∈ slots) :
    valuesOf key (present slots) = o.toList := by
  induction slots with
  | nil => cases hmem
  | cons slot rest ih =>
    obtain ⟨hnotin, hnd⟩ := List.nodup_cons.mp hnd
    rw [present_cons, valuesOf_append]
    rcases List.mem_cons.mp hmem with rfl | hmem
    · rw [valuesOf_present_of_notMem fun slot hs heq => hnotin (List.mem_map.mpr ⟨slot, hs, heq⟩),
        List.append_nil]
      cases o <;> simp [valuesOf]
    · have hne : slot.1 ≠ key := fun heq => hnotin (List.mem_map.mpr ⟨_, hmem, heq.symm⟩)
      rw [ih hnd hmem]
      cases slot.2 <;> simp [valuesOf, hne]

theorem requiredField_present (hnd : (slots.map Prod.fst).Nodup) {read : Json → Option α} {j : Json}
    {a : α} (hmem : (key, some j) ∈ slots) (hread : read j = some a) :
    requiredField (present slots) key read = some a := by
  rw [requiredField, valuesOf_present hnd hmem]
  exact hread

theorem defaultField_present (hnd : (slots.map Prod.fst).Nodup) {read : Json → Option α}
    {write : α → Json} {x : Option α} (hmem : (key, x.map write) ∈ slots)
    (hread : ∀ a, read (write a) = some a) (hnull : ∀ a, (write a).isNull = false) :
    defaultField (present slots) key read = some x := by
  rw [defaultField, valuesOf_present hnd hmem]
  cases x with
  | none => rfl
  | some a => simp [hread a, hnull a]

end Present

theorem readString_stringOf (s : String) : readString (stringOf s) = some s := by
  simp [readString, readText, stringOf]

theorem readNat_numberOf {n bound : ℕ} (h : n < bound) : readNat bound (numberOf n) = some n := by
  have hdigits : ∀ c ∈ Nat.toDigits 10 n, c.isDigit = true :=
    fun _ hc => Nat.isDigit_of_mem_toDigits (by decide) (by decide) hc
  have hvalue : Nat.ofDigitChars 10 (Nat.toDigits 10 n) 0 = n := Nat.ofDigitChars_ten_toDigits
  simp only [readNat, numberOf, hvalue]
  exact if_pos ⟨List.all_eq_true.mpr hdigits, h⟩

theorem readUInt16_numberOf (n : UInt16) : readUInt16 (numberOf n.toNat) = some n := by
  rw [readUInt16, readNat_numberOf n.toNat_lt]
  simp

theorem readUInt32_numberOf (n : UInt32) : readUInt32 (numberOf n.toNat) = some n := by
  rw [readUInt32, readNat_numberOf n.toNat_lt]
  simp

theorem readUInt64_numberOf (n : UInt64) : readUInt64 (numberOf n.toNat) = some n := by
  rw [readUInt64, readNat_numberOf n.toNat_lt]
  simp

theorem readOutcome_variant (o : Outcome) : readOutcome (stringOf o.variant) = some o := by
  cases o <;> decide

theorem readStatus_variant (s : ClassifyTaskStatus) : readStatus (stringOf s.variant) = some s := by
  cases s <;> decide

theorem isNull_numberOf (n : ℕ) : (numberOf n).isNull = false := by
  have hne : Nat.toDigits 10 n ≠ "null".toList := by
    intro h
    have hdigit : 'n'.isDigit = true :=
      Nat.isDigit_of_mem_toDigits (b := 10) (n := n) (by decide) (by decide) (by rw [h]; decide)
    cases hdigit
  simpa [Json.isNull, numberOf] using hne

theorem LastError.deserialize_serialize (e : LastError) : deserialize e.serialize = some e := by
  have hnd : (e.slots.map Prod.fst).Nodup := by
    show ["kind".toList, "status".toList, "message".toList].Nodup
    decide
  have hkind : requiredField (present e.slots) "kind".toList readString = some e.kind :=
    requiredField_present hnd (by simp [slots]) (readString_stringOf _)
  have hstatus : defaultField (present e.slots) "status".toList readUInt16 = some e.status :=
    defaultField_present hnd (by simp [slots]) readUInt16_numberOf fun _ => isNull_numberOf _
  have hmessage : requiredField (present e.slots) "message".toList readString = some e.message :=
    requiredField_present hnd (by simp [slots]) (readString_stringOf _)
  rw [serialize, deserialize, hkind, hstatus, hmessage]
  rfl

section Forms

variable {forms : TextForms}

theorem readTime_timeOf (hforms : forms.Faithful) (t : DateTime) :
    readTime forms (timeOf forms t) = some t := hforms.time t

theorem readUuid_uuidOf (hforms : forms.Faithful) (id : Uuid) :
    readUuid forms (uuidOf forms id) = some id := hforms.uuid id

theorem nodup_keys (e : ClipQueueEntry) : ((e.slots forms).map Prod.fst).Nodup := by
  show ["clip_id".toList, "captured_at".toList, "enqueued_at".toList, "byte_size".toList,
    "attempts".toList, "first_attempt_at".toList, "last_attempt_at".toList, "last_error".toList,
    "next_attempt_after".toList, "outcome".toList, "classify_task_id".toList,
    "delivered_at".toList, "last_classify_status".toList, "classify_lost_at".toList].Nodup
  decide

/-- A record is read back from the fields it is written as. -/
theorem ClipQueueEntry.deserialize_serialize (hforms : forms.Faithful) (e : ClipQueueEntry) :
    deserialize forms (e.serialize forms) = some e := by
  have hrequired : ∀ {α : Type} (key : Text) {read : Json → Option α} {j : Json} {a : α},
      (key, some j) ∈ e.slots forms → read j = some a →
        requiredField (present (e.slots forms)) key read = some a :=
    fun _ => requiredField_present (nodup_keys e)
  have hdefault : ∀ {α : Type} (key : Text) {read : Json → Option α} {write : α → Json}
      {x : Option α}, (key, x.map write) ∈ e.slots forms → (∀ a, read (write a) = some a) →
        (∀ a, (write a).isNull = false) →
          defaultField (present (e.slots forms)) key read = some x :=
    fun _ => defaultField_present (nodup_keys e)
  have htime := readTime_timeOf hforms
  have hclip := hrequired "clip_id".toList (by simp [slots]) (readString_stringOf e.clipId)
  have hcaptured := hrequired "captured_at".toList (by simp [slots]) (htime e.capturedAt)
  have henqueued := hrequired "enqueued_at".toList (by simp [slots]) (htime e.enqueuedAt)
  have hbytes := hrequired "byte_size".toList (by simp [slots]) (readUInt64_numberOf e.byteSize)
  have hattempts := hrequired "attempts".toList (by simp [slots]) (readUInt32_numberOf e.attempts)
  have hfirst := hdefault "first_attempt_at".toList (x := e.firstAttemptAt) (by simp [slots]) htime
    fun _ => rfl
  have hlast := hdefault "last_attempt_at".toList (x := e.lastAttemptAt) (by simp [slots]) htime
    fun _ => rfl
  have herror := hdefault "last_error".toList (x := e.lastError) (by simp [slots])
    LastError.deserialize_serialize fun _ => rfl
  have hnext := hdefault "next_attempt_after".toList (x := e.nextAttemptAfter) (by simp [slots]) htime
    fun _ => rfl
  have houtcome := hdefault "outcome".toList (x := e.outcome) (by simp [slots]) readOutcome_variant
    fun _ => rfl
  have htask := hdefault "classify_task_id".toList (x := e.classifyTaskId) (by simp [slots])
    (readUuid_uuidOf hforms) fun _ => rfl
  have hdelivered := hdefault "delivered_at".toList (x := e.deliveredAt) (by simp [slots]) htime
    fun _ => rfl
  have hstatus := hdefault "last_classify_status".toList (x := e.lastClassifyStatus)
    (by simp [slots]) readStatus_variant fun _ => rfl
  have hlost := hdefault "classify_lost_at".toList (x := e.classifyLostAt) (by simp [slots]) htime
    fun _ => rfl
  rw [serialize, deserialize, hclip, hcaptured, henqueued, hbytes, hattempts, hfirst, hlast, herror,
    hnext, houtcome, htask, hdelivered, hstatus, hlost]
  rfl

end Forms

end Perchstation
