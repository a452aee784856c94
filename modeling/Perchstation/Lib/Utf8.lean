import Mathlib.Data.List.Basic
import Mathlib.Data.List.Infix
import Mathlib.Data.Nat.Notation

/-!
# Utf8 — decoding bytes that need not be UTF-8

`fromUtf8Lossy` decodes byte by byte and puts one replacement character for each longest beginning of
a sequence that does not go on.  An ASCII byte stands for itself and ends whatever was pending, so a
text begins with, ends with and splits at ASCII characters where its bytes do.
-/

namespace Utf8

/-- The replacement character. -/
def replacement : Char := '\ufffd'

/-- An ASCII byte's character. -/
def chr (b : UInt8) : Char := Char.ofNat b.toNat

/-- A sequence that has begun: its bits so far, how many bytes it is owed after the next one, and the
range of the next one.  What it stands for in the end is beyond ASCII. -/
structure Pending where
  bits : ℕ
  owed : ℕ
  low : ℕ
  high : ℕ
  low_ge : 128 ≤ low
  wide : 2 ≤ bits ∨ 0 < owed ∧ (1 ≤ bits ∨ 144 ≤ low)

/-- The sequence that the byte begins.  The second byte keeps out longer forms of shorter sequences,
surrogates, and what is beyond the last code point. -/
def Pending.first (b : UInt8) : Option Pending :=
  if h : 0xc2 ≤ b.toNat ∧ b.toNat ≤ 0xdf then
    some ⟨b.toNat - 0xc0, 0, 0x80, 0xbf, le_rfl, by omega⟩
  else if b.toNat = 0xe0 then some ⟨0, 1, 0xa0, 0xbf, by decide, by decide⟩
  else if b.toNat = 0xed then some ⟨13, 1, 0x80, 0x9f, le_rfl, by decide⟩
  else if h : 0xe1 ≤ b.toNat ∧ b.toNat ≤ 0xef then
    some ⟨b.toNat - 0xe0, 1, 0x80, 0xbf, le_rfl, by omega⟩
  else if b.toNat = 0xf0 then some ⟨0, 2, 0x90, 0xbf, by decide, by decide⟩
  else if h : 0xf1 ≤ b.toNat ∧ b.toNat ≤ 0xf3 then
    some ⟨b.toNat - 0xf0, 2, 0x80, 0xbf, le_rfl, by omega⟩
  else if b.toNat = 0xf4 then some ⟨4, 2, 0x80, 0x8f, le_rfl, by decide⟩
  else none

/-- The byte, with nothing pending. -/
def fresh (b : UInt8) : List Char × Option Pending :=
  if b.toNat < 128 then ([chr b], none)
  else match Pending.first b with
    | some p => ([], some p)
    | none => ([replacement], none)

def Pending.next (p : Pending) (b : UInt8) : List Char × Option Pending :=
  if h : p.low ≤ b.toNat ∧ b.toNat ≤ p.high then
    if p.owed = 0 then ([Char.ofNat (p.bits * 64 + (b.toNat - 128))], none)
    else
      ([], some ⟨p.bits * 64 + (b.toNat - 128), p.owed - 1, 0x80, 0xbf, le_rfl, by
        have hwide := p.wide
        have hlow := p.low_ge
        omega⟩)
  else (replacement :: (fresh b).1, (fresh b).2)

def step : Option Pending → UInt8 → List Char × Option Pending
  | none, b => fresh b
  | some p, b => p.next b

/-- What is left of a sequence that ends too early. -/
def flush : Option Pending → List Char
  | none => []
  | some _ => [replacement]

def decode : Option Pending → List UInt8 → List Char
  | st, [] => flush st
  | st, b :: rest => (step st b).1 ++ decode (step st b).2 rest

/-- `String::from_utf8_lossy`. -/
def fromUtf8Lossy (bytes : List UInt8) : List Char := decode none bytes

/-- A byte followed by the beginning of a sequence of three and a surrogate. -/
example : fromUtf8Lossy [0x61, 0xe2, 0x82, 0x0a, 0xed, 0xa0, 0xc3, 0xa9] =
    ['a', replacement, '\n', replacement, replacement, 'é'] := by decide

/-! ## ASCII -/

/-- A character of ASCII other than the null. -/
def Plain (c : Char) : Prop := 0 < c.toNat ∧ c.toNat < 128

variable {st : Option Pending} {b : UInt8} {c : Char} {l rest : List UInt8}

theorem toNat_ofNat {n : ℕ} (h : n.isValidChar) : (Char.ofNat n).toNat = n := by
  rw [Char.ofNat, dif_pos h]
  rfl

theorem toNat_chr (h : b.toNat < 128) : (chr b).toNat = b.toNat := toNat_ofNat (Or.inl (by omega))

theorem not_plain_ofNat {n : ℕ} (h : 128 ≤ n) : ¬ Plain (Char.ofNat n) := by
  by_cases hvalid : n.isValidChar
  · rw [Plain, toNat_ofNat hvalid]
    omega
  · rw [Char.ofNat, dif_neg hvalid]
    exact fun hplain => absurd hplain.1 (by decide)

theorem not_plain_replacement : ¬ Plain replacement := fun h => absurd h.2 (by decide)

theorem not_plain_flush (hc : c ∈ flush st) : ¬ Plain c := by
  cases st with
  | none => cases hc
  | some p =>
    obtain rfl := List.mem_singleton.mp hc
    exact not_plain_replacement

theorem step_ascii (st : Option Pending) (hb : b.toNat < 128) :
    step st b = (flush st ++ [chr b], none) := by
  have hfresh : fresh b = ([chr b], none) := if_pos hb
  cases st with
  | none => exact hfresh
  | some p =>
    have hout : ¬ (p.low ≤ b.toNat ∧ b.toNat ≤ p.high) := by
      have hlow := p.low_ge
      omega
    show p.next b = _
    rw [Pending.next, dif_neg hout, hfresh]
    rfl

theorem not_plain_step (hb : 128 ≤ b.toNat) (hc : c ∈ (step st b).1) : ¬ Plain c := by
  have hfresh : ∀ c ∈ (fresh b).1, ¬ Plain c := by
    intro c hc
    rw [fresh, if_neg (by omega)] at hc
    cases hfirst : Pending.first b with
    | some p =>
      rw [hfirst] at hc
      cases hc
    | none =>
      rw [hfirst] at hc
      obtain rfl := List.mem_singleton.mp hc
      exact not_plain_replacement
  cases st with
  | none => exact hfresh c hc
  | some p =>
    simp only [step, Pending.next] at hc
    split_ifs at hc with hin howed
    · have hwide := p.wide
      have hbits : 128 ≤ p.bits * 64 + (b.toNat - 128) := by omega
      rw [List.mem_singleton.mp hc]
      exact not_plain_ofNat hbits
    · cases hc
    · rcases List.mem_cons.mp hc with rfl | hc
      · exact not_plain_replacement
      · exact hfresh c hc

/-- A byte beyond ASCII gives a character or begins or continues a sequence. -/
theorem pending_of_step (hb : 128 ≤ b.toNat) (h : (step st b).1 = []) :
    ∃ p, (step st b).2 = some p := by
  cases st with
  | none =>
    simp only [step, fresh, if_neg (show ¬ b.toNat < 128 by omega)] at h ⊢
    cases hfirst : Pending.first b with
    | some p => exact ⟨p, rfl⟩
    | none =>
      rw [hfirst] at h
      cases h
  | some p =>
    simp only [step, Pending.next] at h ⊢
    by_cases hin : p.low ≤ b.toNat ∧ b.toNat ≤ p.high
    · rw [dif_pos hin] at h ⊢
      by_cases howed : p.owed = 0
      · rw [if_pos howed] at h
        cases h
      · rw [if_neg howed]
        exact ⟨_, rfl⟩
    · rw [dif_neg hin] at h
      cases h

/-! ## Where a text shows ASCII -/

theorem decode_ascii (st : Option Pending) (hb : b.toNat < 128) (rest : List UInt8) :
    decode st (b :: rest) = flush st ++ chr b :: decode none rest := by
  rw [decode, step_ascii st hb, List.append_assoc, List.singleton_append]

/-- A text splits at an ASCII byte. -/
theorem decode_append_ascii (st : Option Pending) (hb : b.toNat < 128) (l rest : List UInt8) :
    decode st (l ++ b :: rest) = decode st l ++ chr b :: decode none rest := by
  induction l generalizing st with
  | nil => exact decode_ascii st hb rest
  | cons a l ih =>
    rw [List.cons_append, decode, ih, decode, List.append_assoc]

theorem mem_of_mem_decode (hc : Plain c) (h : c ∈ decode st l) :
    ∃ b ∈ l, b.toNat < 128 ∧ chr b = c := by
  induction l generalizing st with
  | nil => exact absurd hc (not_plain_flush h)
  | cons a l ih =>
    rcases List.mem_append.mp h with h | h
    · by_cases ha : a.toNat < 128
      · rw [step_ascii st ha] at h
        rcases List.mem_append.mp h with h | h
        · exact absurd hc (not_plain_flush h)
        · exact ⟨a, List.mem_cons_self, ha, (List.mem_singleton.mp h).symm⟩
      · exact absurd hc (not_plain_step (by omega) h)
    · obtain ⟨b, hb, hchr⟩ := ih h
      exact ⟨b, List.mem_cons_of_mem _ hb, hchr⟩

/-- A text that begins inside a sequence begins with no ASCII character. -/
theorem not_plain_head {p : Pending} {t : List Char} (h : decode (some p) l = c :: t) :
    ¬ Plain c := by
  induction l generalizing p with
  | nil =>
    obtain ⟨rfl, -⟩ := List.cons.inj h
    exact not_plain_replacement
  | cons b l ih =>
    by_cases hb : b.toNat < 128
    · rw [decode_ascii _ hb] at h
      obtain ⟨rfl, -⟩ := List.cons.inj h
      exact not_plain_replacement
    · rw [decode] at h
      cases hout : (step (some p) b).1 with
      | nil =>
        obtain ⟨q, hq⟩ := pending_of_step (not_lt.mp hb) hout
        rw [hout, hq] at h
        exact ih h
      | cons d out =>
        rw [hout] at h
        obtain ⟨rfl, -⟩ := List.cons.inj h
        exact not_plain_step (not_lt.mp hb) (by rw [hout]; exact List.mem_cons_self)

theorem chr_inj {a b : UInt8} (ha : a.toNat < 128) (hb : b.toNat < 128) (h : chr a = chr b) :
    a = b := by
  have hnat := congrArg Char.toNat h
  rw [toNat_chr ha, toNat_chr hb] at hnat
  exact UInt8.toNat_inj.mp hnat

/-- The byte of an ASCII character other than the null. -/
def PlainByte (b : UInt8) : Prop := 0 < b.toNat ∧ b.toNat < 128

instance (b : UInt8) : Decidable (PlainByte b) := inferInstanceAs (Decidable (_ ∧ _))

theorem PlainByte.plain (h : PlainByte b) : Plain (chr b) := by
  rw [Plain, toNat_chr h.2]
  exact h

/-- A text begins with an ASCII word exactly if its bytes do. -/
theorem prefix_fromUtf8Lossy {m : List UInt8} (hm : ∀ b ∈ m, PlainByte b) :
    m.map chr <+: fromUtf8Lossy l ↔ m <+: l := by
  induction m generalizing l with
  | nil => simp
  | cons a m ih =>
    have ha := hm a List.mem_cons_self
    have htail : ∀ b ∈ m, PlainByte b := fun b hb => hm b (List.mem_cons_of_mem _ hb)
    cases l with
    | nil => simp [fromUtf8Lossy, decode, flush]
    | cons b l =>
      rw [List.map_cons, fromUtf8Lossy]
      by_cases hb : b.toNat < 128
      · rw [decode_ascii _ hb, flush, List.nil_append, List.cons_prefix_cons, List.cons_prefix_cons]
        exact and_congr ⟨chr_inj ha.2 hb, congrArg chr⟩ (ih htail)
      · refine iff_of_false ?_ ?_
        · rintro ⟨t, ht⟩
          rw [List.cons_append, decode] at ht
          cases hout : (step none b).1 with
          | nil =>
            obtain ⟨p, hp⟩ := pending_of_step (not_lt.mp hb) hout
            rw [hout, hp] at ht
            exact not_plain_head ht.symm ha.plain
          | cons d out =>
            rw [hout] at ht
            obtain ⟨rfl, -⟩ := List.cons.inj ht
            exact not_plain_step (not_lt.mp hb) (by rw [hout]; exact List.mem_cons_self) ha.plain
        · intro hpre
          obtain rfl := (List.cons_prefix_cons.mp hpre).1
          exact hb ha.2

/-- The last character is no ASCII character if the last byte is beyond ASCII. -/
theorem not_plain_last (st : Option Pending) (hb : 128 ≤ b.toNat) (l : List UInt8) :
    ∃ init c, decode st (l ++ [b]) = init ++ [c] ∧ ¬ Plain c := by
  induction l generalizing st with
  | nil =>
    show ∃ init c, (step st b).1 ++ flush (step st b).2 = _ ∧ _
    cases hpend : (step st b).2 with
    | some p => exact ⟨_, replacement, rfl, not_plain_replacement⟩
    | none =>
      rcases List.eq_nil_or_concat' (step st b).1 with hout | ⟨init, c, hout⟩
      · obtain ⟨p, hp⟩ := pending_of_step hb hout
        rw [hp] at hpend
        cases hpend
      · refine ⟨init, c, by rw [hout, flush, List.append_nil], ?_⟩
        have hmem : c ∈ (step st b).1 := by
          rw [hout]
          exact List.mem_append_right _ (List.mem_singleton_self c)
        exact not_plain_step hb hmem
  | cons a l ih =>
    obtain ⟨init, c, hdec, hc⟩ := ih (step st a).2
    exact ⟨(step st a).1 ++ init, c, by rw [List.cons_append, decode, hdec, List.append_assoc], hc⟩

theorem fromUtf8Lossy_ne_nil (h : l ≠ []) : fromUtf8Lossy l ≠ [] := by
  rcases List.eq_nil_or_concat' l with rfl | ⟨l, b, rfl⟩
  · exact absurd rfl h
  · rw [fromUtf8Lossy]
    by_cases hb : b.toNat < 128
    · rw [decode_append_ascii none hb]
      exact List.append_ne_nil_of_right_ne_nil _ (List.cons_ne_nil _ _)
    · obtain ⟨init, c, hdec, -⟩ := not_plain_last none (not_lt.mp hb) l
      rw [hdec]
      exact List.append_ne_nil_of_right_ne_nil _ (List.cons_ne_nil _ _)

theorem getLast_of_decode (hc : Plain c) (h : (decode st l).getLast? = some c) :
    ∃ b, l.getLast? = some b ∧ b.toNat < 128 ∧ chr b = c := by
  rcases List.eq_nil_or_concat' l with rfl | ⟨l, b, rfl⟩
  · exact absurd hc (not_plain_flush (List.mem_of_getLast? h))
  · by_cases hb : b.toNat < 128
    · rw [decode_append_ascii st hb] at h
      exact ⟨b, by simp, hb, by simpa [decode, flush] using h⟩
    · obtain ⟨init, d, hdec, hd⟩ := not_plain_last st (not_lt.mp hb) l
      rw [hdec, List.getLast?_concat] at h
      obtain rfl := Option.some.inj h
      exact absurd hc hd

/-! ## Encoding -/

/-- The bytes of a text. -/
def encode (t : List Char) : List UInt8 := t.flatMap String.utf8EncodeChar

section Encode

variable {c : Char} {b : UInt8}

theorem encode_append (t u : List Char) : encode (t ++ u) = encode t ++ encode u :=
  List.flatMap_append

theorem encode_cons (c : Char) (t : List Char) :
    encode (c :: t) = String.utf8EncodeChar c ++ encode t := rfl

theorem encode_injective : Function.Injective encode := by
  intro t u h
  have hbytes : t.utf8Encode = u.utf8Encode := congrArg List.toByteArray h
  exact String.ofList_injective (String.toByteArray_inj.mp hbytes)

theorem utf8EncodeChar_ascii (h : c.toNat < 128) :
    String.utf8EncodeChar c = [UInt8.ofNat c.toNat] := by
  have hv : c.val.toNat ≤ 127 := Nat.le_of_lt_succ h
  unfold String.utf8EncodeChar
  exact if_pos hv

/-- The bytes of a character beyond ASCII are beyond ASCII. -/
theorem le_of_mem_utf8EncodeChar (h : 128 ≤ c.toNat) (hb : b ∈ String.utf8EncodeChar c) :
    128 ≤ b.toNat := by
  have hv : ¬ c.val.toNat ≤ 127 := Nat.not_le.mpr h
  have hbyte : ∀ n : ℕ, 128 ≤ n % 256 → 128 ≤ (UInt8.ofNat n).toNat := by
    intro n hn
    rw [UInt8.toNat_ofNat']
    exact hn
  unfold String.utf8EncodeChar at hb
  simp only [hv, if_false] at hb
  split_ifs at hb <;> simp only [List.mem_cons, List.not_mem_nil, or_false] at hb
  · rcases hb with rfl | rfl <;> exact hbyte _ (by omega)
  · rcases hb with rfl | rfl | rfl <;> exact hbyte _ (by omega)
  · rcases hb with rfl | rfl | rfl | rfl <;> exact hbyte _ (by omega)

end Encode

end Utf8
