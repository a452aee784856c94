import Perchstation.Lib.Nesting
import Perchstation.Lib.Utf8
import Perchstation.Observability.JsonLine

/-!
# JSON text — the texts a JSON value has, and the one a sidecar is written in

`IsText` is the grammar: any whitespace between the tokens, any form of a string.  `pretty` is
`serde_json`'s indented form, one of the texts of its value.  Its bytes are neutral to a scan that
counts brackets, so what is in brackets stays open until its last byte.
-/

namespace Perchstation

open Nesting

/-! ## The grammar -/

def IsDigits (t : Text) : Prop := t ≠ [] ∧ ∀ c ∈ t, c.isDigit = true

/-- An integer without a sign: no leading zeros. -/
def IsInt (t : Text) : Prop := IsDigits t ∧ (t.head? = some '0' → t = ['0'])

def IsFraction (t : Text) : Prop := t = [] ∨ ∃ digits, IsDigits digits ∧ t = '.' :: digits

def IsExponent (t : Text) : Prop :=
  t = [] ∨ ∃ e sign digits, (e = 'e' ∨ e = 'E') ∧ (sign = [] ∨ sign = ['+'] ∨ sign = ['-']) ∧
    IsDigits digits ∧ t = e :: sign ++ digits

/-- A number, `true`, `false` or `null`. -/
inductive IsScalar : Text → Prop
  | word {t : Text} : t = "true".toList ∨ t = "false".toList ∨ t = "null".toList → IsScalar t
  | number {sign int fraction exponent : Text} : sign = [] ∨ sign = ['-'] → IsInt int →
      IsFraction fraction → IsExponent exponent → IsScalar (sign ++ int ++ fraction ++ exponent)

/-- Whitespace. -/
def IsWs (t : Text) : Prop := ∀ c ∈ t, c = ' ' ∨ c = '\n' ∨ c = '\x0d' ∨ c = '\t'

mutual

/-- The text is one of the value, without whitespace around it. -/
inductive IsValue : Text → Json → Prop
  | bare {t : BareText} : IsScalar t.text → IsValue t.text (.bare t)
  | str {body t : Text} : Decodes body t → IsValue ('"' :: body ++ ['"']) (.str t)
  | noItems {ws : Text} : IsWs ws → IsValue ('[' :: ws ++ [']']) (.arr [])
  | items {s : Text} {items : List Json} : IsItems s items → IsValue ('[' :: s ++ [']']) (.arr items)
  | noFields {ws : Text} : IsWs ws → IsValue ('{' :: ws ++ ['}']) (.obj [])
  | fields {s : Text} {fields : List (Text × Json)} : IsFields s fields →
      IsValue ('{' :: s ++ ['}']) (.obj fields)

/-- One item or more, with commas between them. -/
inductive IsItems : Text → List Json → Prop
  | last {a v b : Text} {j : Json} : IsWs a → IsValue v j → IsWs b → IsItems (a ++ v ++ b) [j]
  | more {a v b rest : Text} {j : Json} {items : List Json} : IsWs a → IsValue v j → IsWs b →
      IsItems rest items → IsItems (a ++ v ++ b ++ ',' :: rest) (j :: items)

inductive IsFields : Text → List (Text × Json) → Prop
  | last {a key k b c v d : Text} {j : Json} : IsWs a → Decodes key k → IsWs b → IsWs c →
      IsValue v j → IsWs d →
      IsFields (a ++ ('"' :: key ++ ['"']) ++ b ++ ':' :: c ++ v ++ d) [(k, j)]
  | more {a key k b c v d rest : Text} {j : Json} {fields : List (Text × Json)} : IsWs a →
      Decodes key k → IsWs b → IsWs c → IsValue v j → IsWs d → IsFields rest fields →
      IsFields (a ++ ('"' :: key ++ ['"']) ++ b ++ ':' :: c ++ v ++ d ++ ',' :: rest)
        ((k, j) :: fields)

end

/-- The text is one of the value. -/
def IsText (t : Text) (j : Json) : Prop :=
  ∃ a v b, IsWs a ∧ IsWs b ∧ IsValue v j ∧ t = a ++ v ++ b

/-! ## The indented form -/

def indent (n : ℕ) : Text := List.replicate (2 * n) ' '

/-- The line before the closing bracket; an empty list has none. -/
def closingLine {α : Type} (n : ℕ) : List α → Text
  | [] => []
  | _ :: _ => '\n' :: indent n

mutual

/-- `serde_json`'s indented form, `n` levels in. -/
def pretty (n : ℕ) : Json → Text
  | .bare t => t.text
  | .str t => quoted t
  | .arr items => '[' :: (prettyItems (n + 1) items ++ closingLine n items) ++ [']']
  | .obj fields => '{' :: (prettyFields (n + 1) fields ++ closingLine n fields) ++ ['}']

def prettyItems (n : ℕ) : List Json → Text
  | [] => []
  | [item] => '\n' :: indent n ++ pretty n item
  | item :: rest => '\n' :: indent n ++ pretty n item ++ ',' :: prettyItems n rest

def prettyFields (n : ℕ) : List (Text × Json) → Text
  | [] => []
  | [(key, value)] => '\n' :: indent n ++ quoted key ++ ':' :: ' ' :: pretty n value
  | (key, value) :: rest =>
    '\n' :: indent n ++ quoted key ++ ':' :: ' ' :: pretty n value ++ ',' :: prettyFields n rest

end

mutual

/-- The bare texts of the value are scalars. -/
def Json.Scalars : Json → Prop
  | .bare t => IsScalar t.text
  | .str _ => True
  | .arr items => ScalarItems items
  | .obj fields => ScalarFields fields

def ScalarItems : List Json → Prop
  | [] => True
  | item :: rest => item.Scalars ∧ ScalarItems rest

def ScalarFields : List (Text × Json) → Prop
  | [] => True
  | (_, value) :: rest => value.Scalars ∧ ScalarFields rest

end

mutual

/-- How deep the value is nested. -/
def Json.height : Json → ℕ
  | .bare _ => 0
  | .str _ => 0
  | .arr items => heightItems items + 1
  | .obj fields => heightFields fields + 1

def heightItems : List Json → ℕ
  | [] => 0
  | item :: rest => max item.height (heightItems rest)

def heightFields : List (Text × Json) → ℕ
  | [] => 0
  | (_, value) :: rest => max value.height (heightFields rest)

end

/-! ## The indented form is a text of the value -/

theorem isWs_nil : IsWs [] := fun _ h => by cases h

theorem isWs_indent (n : ℕ) : IsWs (indent n) := fun _ h => Or.inl (List.eq_of_mem_replicate h)

theorem isWs_newline (n : ℕ) : IsWs ('\n' :: indent n) := by
  intro c hc
  rcases List.mem_cons.mp hc with rfl | hc
  · exact Or.inr (Or.inl rfl)
  · exact isWs_indent n c hc

theorem isWs_space : IsWs [' '] := by
  intro c hc
  exact Or.inl (List.mem_singleton.mp hc)

theorem isValue_arr {n : ℕ} {items : List Json} (h : items ≠ [] →
    IsItems (prettyItems (n + 1) items ++ '\n' :: indent n) items) :
    IsValue (pretty n (.arr items)) (.arr items) := by
  rw [pretty]
  cases items with
  | nil => exact .noItems isWs_nil
  | cons item rest => exact .items (h (List.cons_ne_nil _ _))

theorem isValue_obj {n : ℕ} {fields : List (Text × Json)} (h : fields ≠ [] →
    IsFields (prettyFields (n + 1) fields ++ '\n' :: indent n) fields) :
    IsValue (pretty n (.obj fields)) (.obj fields) := by
  rw [pretty]
  cases fields with
  | nil => exact .noFields isWs_nil
  | cons field rest => exact .fields (h (List.cons_ne_nil _ _))

mutual

theorem isValue_pretty (n : ℕ) : ∀ j : Json, j.Scalars → IsValue (pretty n j) j
  | .bare _, h => .bare h
  | .str t, _ => .str (decodes_escape t)
  | .arr items, h =>
    isValue_arr fun hne => isItems_prettyItems (n + 1) items hne h (isWs_newline n)
  | .obj fields, h =>
    isValue_obj fun hne => isFields_prettyFields (n + 1) fields hne h (isWs_newline n)

theorem isItems_prettyItems (n : ℕ) : ∀ items : List Json, items ≠ [] → ScalarItems items →
    ∀ {w : Text}, IsWs w → IsItems (prettyItems n items ++ w) items
  | [], hne, _, _, _ => absurd rfl hne
  | [item], _, h, _, hw => .last (isWs_newline n) (isValue_pretty n item h.1) hw
  | item :: item' :: rest, _, h, w, hw => by
    have hrest := isItems_prettyItems n (item' :: rest) (List.cons_ne_nil _ _) h.2 hw
    have hmore := IsItems.more (isWs_newline n) (isValue_pretty n item h.1) isWs_nil hrest
    simpa [prettyItems] using hmore

theorem isFields_prettyFields (n : ℕ) : ∀ fields : List (Text × Json), fields ≠ [] →
    ScalarFields fields → ∀ {w : Text}, IsWs w → IsFields (prettyFields n fields ++ w) fields
  | [], hne, _, _, _ => absurd rfl hne
  | [(key, value)], _, h, w, hw => by
    have hlast := IsFields.last (isWs_newline n) (decodes_escape key) isWs_nil isWs_space
      (isValue_pretty n value h.1) hw
    simpa [prettyFields, quoted] using hlast
  | (key, value) :: field :: rest, _, h, w, hw => by
    have hrest := isFields_prettyFields n (field :: rest) (List.cons_ne_nil _ _) h.2 hw
    have hmore := IsFields.more (isWs_newline n) (decodes_escape key) isWs_nil isWs_space
      (isValue_pretty n value h.1) isWs_nil hrest
    simpa [prettyFields, quoted] using hmore

end

theorem isText_pretty {j : Json} (h : j.Scalars) : IsText (pretty 0 j) j :=
  ⟨[], pretty 0 j, [], isWs_nil, isWs_nil, isValue_pretty 0 j h, by simp⟩

/-! ## Brackets -/

/-- What a code below 128 is to a scan that counts brackets. -/
def codeKind (n : ℕ) : Kind :=
  if n = 0x7b ∨ n = 0x5b then .opens
  else if n = 0x7d ∨ n = 0x5d then .closes
  else if n = 0x22 then .quote
  else if n = 0x5c then .escape
  else .other

def byteKind (b : UInt8) : Kind := codeKind b.toNat

/-- The bytes end before any value has, or in the middle of one. -/
def Unclosed (b : List UInt8) : Prop := b = [] ∨ 0 < depthAfter byteKind b

theorem codeKind_high {n : ℕ} (h : 128 ≤ n) : codeKind n = .other := by
  unfold codeKind
  rw [if_neg (by omega), if_neg (by omega), if_neg (by omega), if_neg (by omega)]

theorem byteKind_of_mem {c : Char} {b : UInt8} (hb : b ∈ String.utf8EncodeChar c) :
    byteKind b = codeKind c.toNat ∨ byteKind b = .other := by
  by_cases hc : c.toNat < 128
  · rw [Utf8.utf8EncodeChar_ascii hc, List.mem_singleton] at hb
    subst hb
    left
    unfold byteKind
    rw [UInt8.toNat_ofNat', Nat.mod_eq_of_lt (by omega)]
  · exact Or.inr (codeKind_high (Utf8.le_of_mem_utf8EncodeChar (Nat.not_lt.mp hc) hb))

theorem literal_char {c : Char} (hq : codeKind c.toNat ≠ .quote) (he : codeKind c.toNat ≠ .escape) :
    Literal byteKind (String.utf8EncodeChar c) := by
  refine literal_of_forall fun b hb => ?_
  rcases byteKind_of_mem hb with h | h <;> rw [h]
  · exact ⟨hq, he⟩
  · exact ⟨by decide, by decide⟩

theorem neutral_chars {t : Text} (h : ∀ c ∈ t, codeKind c.toNat = .other) :
    Neutral byteKind (Utf8.encode t) := by
  refine neutral_of_forall fun b hb => ?_
  obtain ⟨c, hc, hb⟩ := List.mem_flatMap.mp hb
  rcases byteKind_of_mem hb with h' | h'
  · exact h'.trans (h c hc)
  · exact h'

theorem encode_bracketed {o c : Char} {t : Text} (ho : o.toNat < 128) (hc : c.toNat < 128) :
    Utf8.encode (o :: t ++ [c]) =
      UInt8.ofNat o.toNat :: Utf8.encode t ++ [UInt8.ofNat c.toNat] := by
  rw [Utf8.encode_append, Utf8.encode_cons, Utf8.encode_cons, Utf8.utf8EncodeChar_ascii ho,
    Utf8.utf8EncodeChar_ascii hc]
  rfl

/-- The character is one of a scalar. -/
def IsBareChar (c : Char) : Prop := c.isAlphanum = true ∨ c = '+' ∨ c = '-' ∨ c = '.'

instance (c : Char) : Decidable (IsBareChar c) := inferInstanceAs (Decidable (_ ∨ _ ∨ _ ∨ _))

theorem isBareChar_of_isDigit {c : Char} (h : c.isDigit = true) : IsBareChar c := by
  left
  simp [Char.isAlphanum, h]

theorem isBareChar_of_isScalar {t : Text} (h : IsScalar t) : t ≠ [] ∧ ∀ c ∈ t, IsBareChar c := by
  have hdigits : ∀ {t}, IsDigits t → ∀ c ∈ t, IsBareChar c :=
    fun h c hc => isBareChar_of_isDigit (h.2 c hc)
  have hsigns : ∀ {sign : Text}, sign = [] ∨ sign = ['+'] ∨ sign = ['-'] →
      ∀ c ∈ sign, IsBareChar c := by
    rintro _ (rfl | rfl | rfl) <;> simp [IsBareChar]
  cases h with
  | word h =>
    have hall : ∀ w ∈ ["true".toList, "false".toList, "null".toList],
        w ≠ [] ∧ ∀ c ∈ w, IsBareChar c := by simp [IsBareChar]
    exact hall t (by simpa using h)
  | @number sign int fraction exponent hsign hint hfrac hexp =>
    have hne : int ≠ [] := hint.1.1
    refine ⟨by simp [hne], fun c hc => ?_⟩
    simp only [List.mem_append] at hc
    rcases hc with ((hc | hc) | hc) | hc
    · exact hsigns (hsign.imp_right Or.inr) c hc
    · exact hdigits hint.1 c hc
    · rcases hfrac with rfl | ⟨digits, hd, rfl⟩
      · cases hc
      · rcases List.mem_cons.mp hc with rfl | hc
        · decide
        · exact hdigits hd c hc
    · rcases hexp with rfl | ⟨e, sign, digits, he, hs, hd, rfl⟩
      · cases hc
      · rcases List.mem_append.mp hc with hc | hc
        · rcases List.mem_cons.mp hc with rfl | hc
          · rcases he with rfl | rfl <;> decide
          · exact hsigns hs c hc
        · exact hdigits hd c hc

theorem codeKind_of_isBareChar {c : Char} (h : IsBareChar c) : codeKind c.toNat = .other := by
  have hcode : ∀ n ∈ [0x7b, 0x5b, 0x7d, 0x5d, 0x22, 0x5c], c.toNat ≠ n := by
    have hall : ∀ n ∈ [0x7b, 0x5b, 0x7d, 0x5d, 0x22, 0x5c], ¬ IsBareChar (Char.ofNat n) := by decide
    intro n hn hcn
    refine hall n hn ?_
    rw [← hcn, Char.ofNat_toNat]
    exact h
  simp only [List.forall_mem_cons] at hcode
  simp [codeKind, hcode]

theorem codeKind_of_isWs {t : Text} (h : IsWs t) : ∀ c ∈ t, codeKind c.toNat = .other := by
  intro c hc
  rcases h c hc with rfl | rfl | rfl | rfl <;> rfl

theorem neutral_ws {t : Text} (h : IsWs t) : Neutral byteKind (Utf8.encode t) :=
  neutral_chars (codeKind_of_isWs h)

theorem neutral_append {t u : Text} (h : Neutral byteKind (Utf8.encode t))
    (h' : Neutral byteKind (Utf8.encode u)) : Neutral byteKind (Utf8.encode (t ++ u)) := by
  rw [Utf8.encode_append]
  exact h.append h'

/-- A comma or a colon. -/
theorem neutral_cons {c : Char} {t : Text} (hc : codeKind c.toNat = .other)
    (h : Neutral byteKind (Utf8.encode t)) : Neutral byteKind (Utf8.encode (c :: t)) := by
  have hchar : Neutral byteKind (Utf8.encode [c]) := by
    refine neutral_chars fun d hd => ?_
    rw [List.mem_singleton.mp hd]
    exact hc
  exact neutral_append hchar h

/-! ### Strings -/

theorem isBareChar_of_hexVal {c : Char} {n : ℕ} (h : hexVal c = some n) : IsBareChar c := by
  left
  unfold hexVal at h
  show ((decide ('A' ≤ c ∧ c ≤ 'Z') || (decide ('a' ≤ c) && decide (c ≤ 'z'))) ||
    (decide ('0' ≤ c) && decide (c ≤ '9'))) = true
  simp only [Bool.or_eq_true, Bool.and_eq_true, decide_eq_true_eq]
  split_ifs at h with h1 h2 h3
  · exact Or.inr h1
  · exact Or.inl (Or.inr ⟨h2.1, Char.le_trans h2.2 (show 'f' ≤ 'z' by decide)⟩)
  · exact Or.inl (Or.inl ⟨h3.1, Char.le_trans h3.2 (show 'F' ≤ 'Z' by decide)⟩)

/-- The four digits of an escape. -/
theorem digits_of_hex4 {body : Text} {n : ℕ} (h : hex4 body = some n) :
    ∃ digits, body = digits ++ body.drop 4 ∧ digits.length = 4 ∧ ∀ c ∈ digits, IsBareChar c := by
  obtain ⟨a, b, c, d, rest, rfl, hall⟩ := hex4_eq_some h
  refine ⟨[a, b, c, d], rfl, rfl, fun x hx => ?_⟩
  obtain ⟨k, hk⟩ := Option.isSome_iff_exists.mp (hall x hx)
  exact isBareChar_of_hexVal hk

theorem literal_bare {t : Text} (h : ∀ c ∈ t, IsBareChar c) :
    Literal byteKind (Utf8.encode t) := by
  induction t with
  | nil => exact literal_nil
  | cons c t ih =>
    have hc := codeKind_of_isBareChar (h c List.mem_cons_self)
    have hhead := @literal_char c (by simp [hc]) (by simp [hc])
    exact hhead.append (ih fun d hd => h d (List.mem_cons_of_mem _ hd))

/-- A backslash takes the next character for itself. -/
theorem literal_escaped {c : Char} {t : Text} (hc : c.toNat < 128)
    (h : Literal byteKind (Utf8.encode t)) : Literal byteKind (Utf8.encode ('\\' :: c :: t)) := by
  have hpair : Literal byteKind (UInt8.ofNat 92 :: [UInt8.ofNat c.toNat]) := literal_escape rfl
  have happ := hpair.append h
  rw [Utf8.encode_cons, Utf8.encode_cons, Utf8.utf8EncodeChar_ascii hc]
  exact happ

/-- The escape of a code unit, and what follows it. -/
theorem literal_unicode {body : Text} {n : ℕ} (h : hex4 body = some n)
    (hrest : Literal byteKind (Utf8.encode (body.drop 4))) :
    Literal byteKind (Utf8.encode ('\\' :: 'u' :: body)) := by
  obtain ⟨digits, hbody, -, hdigits⟩ := digits_of_hex4 h
  refine literal_escaped (by decide) ?_
  rw [hbody, Utf8.encode_append]
  exact (literal_bare hdigits).append hrest

theorem literal_of_decodes {body t : Text} (h : Decodes body t) :
    Literal byteKind (Utf8.encode body) := by
  induction h with
  | nil => exact literal_nil
  | @char c body t hc _ ih =>
    have hkind : codeKind c.toNat ≠ .quote ∧ codeKind c.toNat ≠ .escape := by
      have hq : c.toNat ≠ 0x22 := fun h => hc (Or.inl (Char.toNat_inj.mp h))
      have he : c.toNat ≠ 0x5c := fun h => hc (Or.inr (Or.inl (Char.toNat_inj.mp h)))
      unfold codeKind
      split_ifs <;> simp
    exact (literal_char hkind.1 hkind.2).append ih
  | @short e c body t he _ ih =>
    refine literal_escaped ?_ ih
    unfold shortEscape at he
    split_ifs at he <;> subst_vars <;> decide
  | unicode h _ _ ih => exact literal_unicode h ih
  | @pair hi lo body low t h _ hlow h' _ _ ih =>
    refine literal_unicode h ?_
    rw [hlow]
    exact literal_unicode h' ih

/-! ### Values -/

theorem neutral_string {body t : Text} (h : Decodes body t) :
    Neutral byteKind (Utf8.encode ('"' :: body ++ ['"'])) := by
  rw [encode_bracketed (by decide) (by decide)]
  exact (literal_of_decodes h).quoted rfl

theorem neutral_arr {s : Text} (h : Neutral byteKind (Utf8.encode s)) :
    Neutral byteKind (Utf8.encode ('[' :: s ++ [']'])) := by
  rw [encode_bracketed (by decide) (by decide)]
  exact h.bracketed rfl rfl

theorem neutral_obj {s : Text} (h : Neutral byteKind (Utf8.encode s)) :
    Neutral byteKind (Utf8.encode ('{' :: s ++ ['}'])) := by
  rw [encode_bracketed (by decide) (by decide)]
  exact h.bracketed rfl rfl

theorem neutral_field {a key k b c v d : Text} (ha : IsWs a) (hkey : Decodes key k) (hb : IsWs b)
    (hc : IsWs c) (hv : Neutral byteKind (Utf8.encode v)) (hd : IsWs d) :
    Neutral byteKind (Utf8.encode (a ++ ('"' :: key ++ ['"']) ++ b ++ ':' :: c ++ v ++ d)) := by
  have hname := neutral_append (neutral_append (neutral_ws ha) (neutral_string hkey)) (neutral_ws hb)
  exact neutral_append (neutral_append (neutral_append hname (neutral_cons rfl (neutral_ws hc))) hv)
    (neutral_ws hd)

mutual

theorem neutral_isValue : ∀ {v : Text} (j : Json), IsValue v j → Neutral byteKind (Utf8.encode v)
  | _, .bare t, h => by
    cases h with
    | bare hs =>
      exact neutral_chars fun c hc => codeKind_of_isBareChar ((isBareChar_of_isScalar hs).2 c hc)
  | _, .str t, h => by
    cases h with
    | str hd => exact neutral_string hd
  | _, .arr items, h => by
    cases h with
    | noItems hw => exact neutral_arr (neutral_ws hw)
    | items hs => exact neutral_arr (neutral_isItems items hs)
  | _, .obj fields, h => by
    cases h with
    | noFields hw => exact neutral_obj (neutral_ws hw)
    | fields hs => exact neutral_obj (neutral_isFields fields hs)

theorem neutral_isItems : ∀ {s : Text} (items : List Json), IsItems s items →
    Neutral byteKind (Utf8.encode s)
  | _, [], h => by cases h
  | _, item :: rest, h => by
    cases h with
    | last ha hv hb =>
      exact neutral_append (neutral_append (neutral_ws ha) (neutral_isValue item hv)) (neutral_ws hb)
    | more ha hv hb hrest =>
      exact neutral_append (neutral_append (neutral_append (neutral_ws ha)
        (neutral_isValue item hv)) (neutral_ws hb)) (neutral_cons rfl (neutral_isItems rest hrest))

theorem neutral_isFields : ∀ {s : Text} (fields : List (Text × Json)), IsFields s fields →
    Neutral byteKind (Utf8.encode s)
  | _, [], h => by cases h
  | _, (_, value) :: rest, h => by
    cases h with
    | last ha hkey hb hc hv hd => exact neutral_field ha hkey hb hc (neutral_isValue value hv) hd
    | more ha hkey hb hc hv hd hrest =>
      exact neutral_append (neutral_field ha hkey hb hc (neutral_isValue value hv) hd)
        (neutral_cons rfl (neutral_isFields rest hrest))

end

/-- The value's texts begin with the character. -/
def Json.Leads (c : Char) : Json → Prop
  | .bare _ => IsBareChar c
  | .str _ => c = '"'
  | .arr _ => c = '['
  | .obj _ => c = '{'

theorem exists_lead {v : Text} {j : Json} (h : IsValue v j) : ∃ c t, v = c :: t ∧ j.Leads c := by
  cases h with
  | @bare t hs =>
    obtain ⟨hne, hall⟩ := isBareChar_of_isScalar hs
    obtain ⟨c, rest, ht⟩ := List.exists_cons_of_ne_nil hne
    exact ⟨c, rest, ht, hall c (by rw [ht]; exact List.mem_cons_self)⟩
  | str => exact ⟨_, _, rfl, rfl⟩
  | noItems => exact ⟨_, _, rfl, rfl⟩
  | items => exact ⟨_, _, rfl, rfl⟩
  | noFields => exact ⟨_, _, rfl, rfl⟩
  | fields => exact ⟨_, _, rfl, rfl⟩

/-- A text of a value is closed at its end. -/
theorem not_unclosed_of_isText {t : Text} {j : Json} (h : IsText t j) :
    ¬ Unclosed (Utf8.encode t) := by
  obtain ⟨a, v, b, ha, hb, hv, rfl⟩ := h
  have hneutral := neutral_append (neutral_append (neutral_ws ha) (neutral_isValue j hv))
    (neutral_ws hb)
  rintro (hnil | hopen)
  · obtain ⟨c, t, rfl, -⟩ := exists_lead hv
    obtain ⟨x, hx⟩ := List.exists_mem_of_ne_nil _ (String.utf8EncodeChar_ne_nil (c := c))
    have hmem : x ∈ Utf8.encode (a ++ c :: t ++ b) := List.mem_flatMap.mpr ⟨c, by simp, hx⟩
    rw [hnil] at hmem
    cases hmem
  · rw [hneutral.depthAfter_eq] at hopen
    exact Nat.lt_irrefl 0 hopen

/-- A text of an object is unclosed wherever it is cut off. -/
theorem unclosed_of_cut {v : Text} {fields : List (Text × Json)} {p : List UInt8}
    (h : IsValue v (.obj fields)) (hp : p <+: Utf8.encode v) (hpart : p ≠ Utf8.encode v) :
    Unclosed p := by
  by_cases hne : p = []
  · exact Or.inl hne
  have hinner : ∃ s, v = '{' :: s ++ ['}'] ∧ Neutral byteKind (Utf8.encode s) := by
    cases h with
    | noFields hw => exact ⟨_, rfl, neutral_ws hw⟩
    | fields hs => exact ⟨_, rfl, neutral_isFields fields hs⟩
  obtain ⟨s, rfl, hs⟩ := hinner
  rw [encode_bracketed (by decide) (by decide)] at hp hpart
  exact Or.inr (hs.open_until_end rfl hp hne hpart)

end Perchstation
