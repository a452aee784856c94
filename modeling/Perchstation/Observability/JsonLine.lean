import Mathlib.Data.List.Basic
import Perchstation.Enrollment.Session

/-!
# JSON lines — what can be read from a scrubbed log line

A log line is a JSON value with `serde_json`'s string escaping and a line feed.  `Reads` is what any
JSON reader can make of a line's strings: the contents of a literal somewhere in it.

The writer scrubs the escaped text.  `Tame` is the invariant: every escape in the text stands for a
character that cannot stand for itself.  Scrubbing a secret that has no such character keeps it, so
a literal shows such a secret only where the text does.
-/

namespace Perchstation

open Replace

/-! ## JSON text -/

/-- The character cannot stand for itself in a JSON string. -/
def NeedsEscape (c : Char) : Prop := c = '"' ∨ c = '\\' ∨ c.toNat < 32

instance (c : Char) : Decidable (NeedsEscape c) := inferInstanceAs (Decidable (_ ∨ _ ∨ _))

/-- The text is its own JSON form. -/
def JsonPlain (t : Text) : Prop := ∀ c ∈ t, ¬ NeedsEscape c

instance (t : Text) : Decidable (JsonPlain t) := List.decidableBAll (fun c => ¬ NeedsEscape c) t

def hexDigit (n : ℕ) : Char := if n < 10 then Char.ofNat (48 + n) else Char.ofNat (87 + n)

/-- `serde_json`'s escaping of one character. -/
def escapeChar (c : Char) : Text :=
  if c = '"' then ['\\', '"']
  else if c = '\\' then ['\\', '\\']
  else if c = '\x08' then ['\\', 'b']
  else if c = '\x0c' then ['\\', 'f']
  else if c = '\n' then ['\\', 'n']
  else if c = '\x0d' then ['\\', 'r']
  else if c = '\t' then ['\\', 't']
  else if c.toNat < 32 then
    ['\\', 'u', '0', '0', hexDigit (c.toNat / 16), hexDigit (c.toNat % 16)]
  else [c]

def escape (t : Text) : Text := t.flatMap escapeChar

def quoted (t : Text) : Text := '"' :: escape t ++ ['"']

/-- A number, `true`, `false` or `null`. -/
structure BareText where
  text : Text
  plain : JsonPlain text

inductive Json
  | bare (t : BareText)
  | str (t : Text)
  | arr (items : List Json)
  | obj (fields : List (Text × Json))

mutual

/-- `serde_json`'s compact form. -/
def Json.write : Json → Text
  | .bare t => t.text
  | .str t => quoted t
  | .arr items => '[' :: writeItems items ++ [']']
  | .obj fields => '{' :: writeFields fields ++ ['}']

def writeItems : List Json → Text
  | [] => []
  | [item] => item.write
  | item :: rest => item.write ++ ',' :: writeItems rest

def writeFields : List (Text × Json) → Text
  | [] => []
  | [(key, value)] => quoted key ++ ':' :: value.write
  | (key, value) :: rest => quoted key ++ ':' :: value.write ++ ',' :: writeFields rest

end

/-- The line that the formatter writes. -/
def logLine (j : Json) : Text := j.write ++ ['\n']

/-! ## Reading strings -/

def hexVal (c : Char) : Option ℕ :=
  if '0' ≤ c ∧ c ≤ '9' then some (c.toNat - 48)
  else if 'a' ≤ c ∧ c ≤ 'f' then some (c.toNat - 87)
  else if 'A' ≤ c ∧ c ≤ 'F' then some (c.toNat - 55)
  else none

/-- The value of the four hexadecimal digits at the beginning of the text. -/
def hex4 : Text → Option ℕ
  | a :: b :: c :: d :: _ => do
    let a ← hexVal a
    let b ← hexVal b
    let c ← hexVal c
    let d ← hexVal d
    return ((a * 16 + b) * 16 + c) * 16 + d
  | _ => none

def shortEscape (e : Char) : Option Char :=
  if e = '"' then some '"'
  else if e = '\\' then some '\\'
  else if e = '/' then some '/'
  else if e = 'b' then some '\x08'
  else if e = 'f' then some '\x0c'
  else if e = 'n' then some '\n'
  else if e = 'r' then some '\x0d'
  else if e = 't' then some '\t'
  else none

/-- The contents `body` of a JSON string literal stand for the text. -/
inductive Decodes : Text → Text → Prop
  | nil : Decodes [] []
  | char {c : Char} {body t : Text} (h : ¬ NeedsEscape c) (rest : Decodes body t) :
      Decodes (c :: body) (c :: t)
  | short {e c : Char} {body t : Text} (h : shortEscape e = some c) (rest : Decodes body t) :
      Decodes ('\\' :: e :: body) (c :: t)
  | unicode {n : ℕ} {body t : Text} (h : hex4 body = some n) (hn : n < 0xd800 ∨ 0xdfff < n)
      (rest : Decodes (body.drop 4) t) : Decodes ('\\' :: 'u' :: body) (Char.ofNat n :: t)
  | pair {hi lo : ℕ} {body low t : Text} (h : hex4 body = some hi) (hhi : 0xd800 ≤ hi ∧ hi ≤ 0xdbff)
      (hlow : body.drop 4 = '\\' :: 'u' :: low) (h' : hex4 low = some lo)
      (hlo : 0xdc00 ≤ lo ∧ lo ≤ 0xdfff) (rest : Decodes (low.drop 4) t) :
      Decodes ('\\' :: 'u' :: body) (Char.ofNat ((hi - 0xd800) * 1024 + (lo - 0xdc00) + 0x10000) :: t)

/-- The line has a string literal that stands for the text. -/
def Reads (line t : Text) : Prop :=
  ∃ pre body post, line = pre ++ '"' :: body ++ '"' :: post ∧ Decodes body t

/-! ## Escapes -/

/-- The escape that starts with `e` and goes on with `t`, if it is one, stands for a character that
needs it. -/
def EscapeNeeded (e : Char) (t : Text) : Prop :=
  (∀ c, shortEscape e = some c → NeedsEscape c) ∧ (e = 'u' → ∀ n, hex4 t = some n → n < 32)

/-- Every escape of the text is one that is needed; `escaped` tells whether the text follows the
backslash of an escape. -/
def Tame : Bool → Text → Prop
  | _, [] => True
  | false, c :: t => Tame (c = '\\') t
  | true, e :: t => EscapeNeeded e t ∧ Tame false t

section Tame

variable {b : Bool} {c e : Char} {t : Text}

theorem tame_cons_of_ne (h : c ≠ '\\') : Tame false (c :: t) ↔ Tame false t := by
  rw [Tame, decide_eq_false h]

theorem tame_escape : Tame false ('\\' :: e :: t) ↔ EscapeNeeded e t ∧ Tame false t := Iff.rfl

theorem ne_backslash_of_plain (h : ¬ NeedsEscape c) : c ≠ '\\' := fun hc => h (Or.inr (Or.inl hc))

/-- A text put before another takes nothing away from it. -/
def TameBlock (x : Text) : Prop := ∀ t, Tame false t → Tame false (x ++ t)

theorem TameBlock.append {x y : Text} (hx : TameBlock x) (hy : TameBlock y) : TameBlock (x ++ y) := by
  intro t ht
  rw [List.append_assoc]
  exact hx _ (hy t ht)

theorem TameBlock.cons {x : Text} (hc : c ≠ '\\') (hx : TameBlock x) : TameBlock (c :: x) :=
  fun t ht => (tame_cons_of_ne hc).mpr (hx t ht)

theorem tameBlock_nil : TameBlock [] := fun _ ht => ht

theorem tameBlock_plain {x : Text} (h : JsonPlain x) : TameBlock x := by
  induction x with
  | nil => exact tameBlock_nil
  | cons c x ih =>
    exact (ih fun d hd => h d (List.mem_cons_of_mem _ hd)).cons
      (ne_backslash_of_plain (h c List.mem_cons_self))

/-- A short escape of a character that needs it. -/
theorem tameBlock_short (h : shortEscape e = some c) (hc : NeedsEscape c) (hu : e ≠ 'u') :
    TameBlock ['\\', e] := by
  refine fun t ht => tame_escape.mpr ⟨⟨fun d hd => ?_, fun he => absurd he hu⟩, ht⟩
  obtain rfl := Option.some.inj (h.symm.trans hd)
  exact hc

theorem hexVal_hexDigit {n : ℕ} (h : n < 16) : hexVal (hexDigit n) = some n := by
  have hall : ∀ k : Fin 16, hexVal (hexDigit k) = some k.val := by decide
  exact hall ⟨n, h⟩

theorem hexDigit_ne_backslash {n : ℕ} (h : n < 16) : hexDigit n ≠ '\\' := by
  have hall : ∀ k : Fin 16, hexDigit k ≠ '\\' := by decide
  exact hall ⟨n, h⟩

theorem hex4_control {n : ℕ} (h : n < 32) (t : Text) :
    hex4 ('0' :: '0' :: hexDigit (n / 16) :: hexDigit (n % 16) :: t) = some n := by
  have h0 : hexVal '0' = some 0 := rfl
  have h1 : n / 16 < 16 := by omega
  have h2 : n % 16 < 16 := by omega
  simp only [hex4, h0, hexVal_hexDigit h1, hexVal_hexDigit h2]
  show some (((0 * 16 + 0) * 16 + n / 16) * 16 + n % 16) = some n
  congr 1
  omega

/-- The escape of a control character. -/
theorem tameBlock_control {n : ℕ} (h : n < 32) :
    TameBlock ['\\', 'u', '0', '0', hexDigit (n / 16), hexDigit (n % 16)] := by
  intro t ht
  have h1 : n / 16 < 16 := by omega
  have h2 : n % 16 < 16 := by omega
  refine tame_escape.mpr ⟨⟨fun c hc => (by cases hc), fun _ m hm => ?_⟩, ?_⟩
  · have heq : some n = some m := (hex4_control h t).symm.trans hm
    obtain rfl := Option.some.inj heq
    exact h
  · show Tame false ('0' :: '0' :: hexDigit (n / 16) :: hexDigit (n % 16) :: t)
    rw [tame_cons_of_ne (by decide), tame_cons_of_ne (by decide),
      tame_cons_of_ne (hexDigit_ne_backslash h1), tame_cons_of_ne (hexDigit_ne_backslash h2)]
    exact ht

theorem tameBlock_escapeChar (c : Char) : TameBlock (escapeChar c) := by
  unfold escapeChar
  split_ifs with h1 h2 h3 h4 h5 h6 h7 h8
  · exact tameBlock_short rfl (by decide : NeedsEscape '"') (by decide)
  · exact tameBlock_short rfl (by decide : NeedsEscape '\\') (by decide)
  · exact tameBlock_short rfl (by decide : NeedsEscape '\x08') (by decide)
  · exact tameBlock_short rfl (by decide : NeedsEscape '\x0c') (by decide)
  · exact tameBlock_short rfl (by decide : NeedsEscape '\n') (by decide)
  · exact tameBlock_short rfl (by decide : NeedsEscape '\x0d') (by decide)
  · exact tameBlock_short rfl (by decide : NeedsEscape '\t') (by decide)
  · exact tameBlock_control h8
  · exact tameBlock_nil.cons h2

theorem tameBlock_quoted (t : Text) : TameBlock (quoted t) := by
  have hescape : TameBlock (escape t) := by
    induction t with
    | nil => exact tameBlock_nil
    | cons c t ih => exact (tameBlock_escapeChar c).append ih
  exact (hescape.append (tameBlock_nil.cons (by decide))).cons (by decide)

mutual

theorem tameBlock_write : ∀ j : Json, TameBlock j.write
  | .bare t => tameBlock_plain t.plain
  | .str t => tameBlock_quoted t
  | .arr items => (((tameBlock_writeItems items).append (tameBlock_nil.cons (by decide))).cons
      (by decide) : TameBlock ('[' :: (writeItems items ++ [']'])))
  | .obj fields => (((tameBlock_writeFields fields).append (tameBlock_nil.cons (by decide))).cons
      (by decide) : TameBlock ('{' :: (writeFields fields ++ ['}'])))

theorem tameBlock_writeItems : ∀ items : List Json, TameBlock (writeItems items)
  | [] => tameBlock_nil
  | [item] => tameBlock_write item
  | item :: item' :: rest =>
    (tameBlock_write item).append ((tameBlock_writeItems (item' :: rest)).cons (by decide))

theorem tameBlock_writeFields : ∀ fields : List (Text × Json), TameBlock (writeFields fields)
  | [] => tameBlock_nil
  | [(key, value)] => (tameBlock_quoted key).append ((tameBlock_write value).cons (by decide))
  | (key, value) :: field :: rest =>
    ((tameBlock_quoted key).append ((tameBlock_write value).cons (by decide))).append
      ((tameBlock_writeFields (field :: rest)).cons (by decide))

end

/-- Every log line is tame. -/
theorem tame_logLine (j : Json) : Tame false (logLine j) :=
  tameBlock_write j _ ((tame_cons_of_ne (by decide)).mpr trivial)

/-- What follows a quote is tame. -/
theorem Tame.after_quote {pre : Text} (h : Tame b (pre ++ '"' :: t)) : Tame false t := by
  induction pre generalizing b with
  | nil =>
    cases b with
    | false => exact (tame_cons_of_ne (by decide)).mp h
    | true => exact h.2
  | cons c pre ih =>
    cases b with
    | false => exact ih h
    | true => exact ih h.2

/-- What follows a plain text is tame. -/
theorem Tame.after_plain {x : Text} (h : Tame b (x ++ t)) (hne : x ≠ []) (hx : JsonPlain x) :
    Tame false t := by
  induction x generalizing b with
  | nil => exact absurd rfl hne
  | cons c x ih =>
    have hrest : Tame false (x ++ t) := by
      cases b with
      | false => exact (tame_cons_of_ne (ne_backslash_of_plain (hx c List.mem_cons_self))).mp h
      | true => exact h.2
    cases x with
    | nil => exact hrest
    | cons d x => exact ih hrest (by simp) fun d hd => hx d (List.mem_cons_of_mem _ hd)

end Tame

/-! ## Scrubbing keeps a text tame -/

section Scrub

variable {b : Bool} {t w : Text} {n : ℕ}

theorem hexVal_ne_bracket {c : Char} (h : (hexVal c).isSome) : c ≠ '[' := by
  rintro rfl
  cases h

/-- A number is read from four characters, none of which is a bracket or a backslash. -/
theorem hex4_eq_some (h : hex4 t = some n) :
    ∃ a b c d rest, t = a :: b :: c :: d :: rest ∧ ∀ x ∈ [a, b, c, d], (hexVal x).isSome := by
  match t, h with
  | a :: b :: c :: d :: rest, h =>
    refine ⟨a, b, c, d, rest, rfl, ?_⟩
    obtain ⟨va, ha, h⟩ := Option.bind_eq_some_iff.mp h
    obtain ⟨vb, hb, h⟩ := Option.bind_eq_some_iff.mp h
    obtain ⟨vc, hc, h⟩ := Option.bind_eq_some_iff.mp h
    obtain ⟨vd, hd, -⟩ := Option.bind_eq_some_iff.mp h
    simp [ha, hb, hc, hd]

theorem hex4_take (t : Text) : hex4 (t.take 4) = hex4 t := by
  match t with
  | [] => rfl
  | [_] => rfl
  | [_, _] => rfl
  | [_, _, _] => rfl
  | _ :: _ :: _ :: _ :: _ => rfl

/-- Up to the first bracket a replaced text is the text. -/
theorem take_replace (hw : w ≠ []) (k : ℕ) :
    '[' ∉ (replace w redactedPlaceholder t).take k →
      (replace w redactedPlaceholder t).take k = t.take k := by
  refine pieces_induction (P := fun t => ∀ k, '[' ∉ (replace w redactedPlaceholder t).take k →
    (replace w redactedPlaceholder t).take k = t.take k) hw ?_ ?_ ?_ t k
  · intro k _
    rw [replace_nil]
  · intro t hp _ k hk
    rw [replace_of_found hw hp] at hk ⊢
    cases k with
    | zero => rfl
    | succ k => exact absurd List.mem_cons_self hk
  · intro a t hp ih k hk
    rw [replace_of_kept hp] at hk ⊢
    cases k with
    | zero => rfl
    | succ k =>
      rw [List.take_succ_cons] at hk ⊢
      rw [List.take_succ_cons, ih k fun hmem => hk (List.mem_cons_of_mem _ hmem)]

/-- A number that is read from a replaced text was there before. -/
theorem hex4_replace (hw : w ≠ []) (h : hex4 (replace w redactedPlaceholder t) = some n) :
    hex4 t = some n := by
  obtain ⟨a, b, c, d, rest, heq, hhex⟩ := hex4_eq_some h
  have htake : (replace w redactedPlaceholder t).take 4 = [a, b, c, d] := by rw [heq]; rfl
  have hsame := take_replace (t := t) hw 4 (by
    rw [htake]
    exact fun hmem => hexVal_ne_bracket (hhex _ hmem) rfl)
  rw [← hex4_take, ← hsame, hex4_take]
  exact h

/-- The placeholder may stand anywhere, even inside an escape: it makes that escape none. -/
theorem tame_placeholder (h : Tame false t) : Tame b (redactedPlaceholder ++ t) := by
  have hword : TameBlock (redactedWord ++ [']']) := tameBlock_plain (by decide)
  cases b with
  | false => exact tameBlock_plain (x := redactedPlaceholder) (by decide) t h
  | true => exact ⟨⟨fun c hc => (by cases hc), fun hu => absurd hu (by decide)⟩, hword t h⟩

theorem EscapeNeeded.replace {e : Char} (hw : w ≠ []) (h : EscapeNeeded e t) :
    EscapeNeeded e (replace w redactedPlaceholder t) :=
  ⟨h.1, fun he n hn => h.2 he n (hex4_replace hw hn)⟩

theorem Tame.replace (hne : w ≠ []) (hw : JsonPlain w) (h : Tame b t) :
    Tame b (replace w redactedPlaceholder t) := by
  refine pieces_induction (P := fun t => ∀ b, Tame b t → Tame b (Replace.replace w
    redactedPlaceholder t)) hne ?_ ?_ ?_ t b h
  · intro b h
    rw [replace_nil]
    exact h
  · intro t hp ih b h
    rw [replace_of_found hne hp]
    refine tame_placeholder (ih false ?_)
    obtain ⟨rest, rfl⟩ := hp
    rw [List.drop_left]
    exact h.after_plain hne hw
  · intro a t hp ih b h
    rw [replace_of_kept hp]
    cases b with
    | false => exact ih _ h
    | true => exact ⟨h.1.replace hne, ih false h.2⟩

theorem Tame.scrub {secrets : List Text} (hplain : ∀ s ∈ secrets, JsonPlain s) (h : Tame b t) :
    Tame b (scrub t secrets) := by
  induction secrets generalizing t with
  | nil => exact h
  | cons s rest ih =>
    refine ih (fun s hs => hplain s (List.mem_cons_of_mem _ hs)) ?_
    unfold scrubOne
    split_ifs with hif
    · exact h.replace hif.1 (hplain s List.mem_cons_self)
    · exact h

end Scrub

/-! ## Reading a tame text -/

section Read

variable {body t rest v : Text}

theorem hex4_append {n : ℕ} (h : hex4 body = some n) : hex4 (body ++ rest) = some n := by
  obtain ⟨a, b, c, d, more, rfl, -⟩ := hex4_eq_some h
  exact h

/-- The digits of an escape are plain. -/
theorem Tame.after_digits {n : ℕ} (hhex : hex4 body = some n) (h : Tame false (body ++ rest)) :
    Tame false (body.drop 4 ++ rest) := by
  obtain ⟨a, b, c, d, more, rfl, hsome⟩ := hex4_eq_some hhex
  have hne : ∀ x ∈ [a, b, c, d], x ≠ '\\' := by
    rintro x hx rfl
    cases hsome _ hx
  rw [List.cons_append, tame_cons_of_ne (hne a (by simp)), List.cons_append,
    tame_cons_of_ne (hne b (by simp)), List.cons_append, tame_cons_of_ne (hne c (by simp)),
    List.cons_append, tame_cons_of_ne (hne d (by simp))] at h
  exact h

theorem needsEscape_ofNat {n : ℕ} (h : n < 32) : NeedsEscape (Char.ofNat n) := by
  have hall : ∀ k : Fin 32, NeedsEscape (Char.ofNat k) := by decide
  exact hall ⟨n, h⟩

/-- What an escape stands for needs it, so a plain text begins at no escape. -/
theorem eq_nil_of_prefix_cons {c : Char} (hv : JsonPlain v) (hc : NeedsEscape c) (h : v <+: c :: t) :
    v = [] := by
  cases v with
  | nil => rfl
  | cons d v =>
    obtain rfl := (List.cons_prefix_cons.mp h).1
    exact absurd hc (hv d List.mem_cons_self)

theorem prefix_of_decodes (hd : Decodes body t) (h : Tame false (body ++ rest)) (hv : JsonPlain v)
    (hpre : v <+: t) : v <+: body := by
  induction hd generalizing v with
  | nil => exact hpre
  | @char c body t hc _ ih =>
    cases v with
    | nil => exact List.nil_prefix
    | cons d v =>
      obtain ⟨rfl, htail⟩ := List.cons_prefix_cons.mp hpre
      have hrest := (tame_cons_of_ne (ne_backslash_of_plain hc)).mp h
      exact List.cons_prefix_cons.mpr
        ⟨rfl, ih hrest (fun x hx => hv x (List.mem_cons_of_mem _ hx)) htail⟩
  | short hs _ _ =>
    rw [eq_nil_of_prefix_cons hv (h.1.1 _ hs) hpre]
    exact List.nil_prefix
  | unicode hn _ _ _ =>
    rw [eq_nil_of_prefix_cons hv (needsEscape_ofNat (h.1.2 rfl _ (hex4_append hn))) hpre]
    exact List.nil_prefix
  | pair hhi hrange _ _ _ _ _ =>
    have hlt := h.1.2 rfl _ (hex4_append hhi)
    omega

/-- A string literal in a tame text shows a plain text only where its contents do. -/
theorem infix_of_decodes (hd : Decodes body t) (h : Tame false (body ++ rest)) (hv : JsonPlain v)
    (hin : v <:+: t) : v <:+: body := by
  induction hd with
  | nil => exact hin
  | @char c body t hc hd ih =>
    have hrest := (tame_cons_of_ne (ne_backslash_of_plain hc)).mp h
    rcases List.infix_cons_iff.mp hin with hin | hin
    · exact (prefix_of_decodes (.char hc hd) h hv hin).isInfix
    · exact List.infix_cons (ih hrest hin)
  | short hs hd ih =>
    rcases List.infix_cons_iff.mp hin with hin | hin
    · exact (prefix_of_decodes (.short hs hd) h hv hin).isInfix
    · exact List.infix_cons (List.infix_cons (ih h.2 hin))
  | @unicode n body t hn hrange hd ih =>
    rcases List.infix_cons_iff.mp hin with hin | hin
    · exact (prefix_of_decodes (.unicode hn hrange hd) h hv hin).isInfix
    · have hdrop : body.drop 4 <:+: body := (List.drop_suffix 4 body).isInfix
      exact List.infix_cons (List.infix_cons
        ((ih (Tame.after_digits hn h.2) hin).trans hdrop))
  | pair hhi hrange _ _ _ _ _ =>
    have hlt := h.1.2 rfl _ (hex4_append hhi)
    omega

end Read

/-- For every session that is accepted and every later registry of secrets that are their own JSON form:
if the placeholder can take no part in the token, no string that can be read from a scrubbed log line
contains the token. -/
theorem redaction_survives_json {Frame : Type} (lib : QrLibrary Frame)
    {before after : RedactionRegistry} {image : Frame} {now : DateTime}
    {material : EnrollmentSessionMaterial}
    (haccept : decodeEnrollmentSession lib before image now = (.ok material, after))
    {reg : RedactionRegistry} (hreg : after.secrets ⊆ reg.secrets)
    (hplain : ∀ s ∈ reg.secrets, JsonPlain s)
    (hapart : Apart redactedPlaceholder material.authToken) (line : Json) {t : Text}
    (hread : Reads (reg.write (logLine line)) t) : ¬ material.authToken <:+: t := by
  obtain ⟨hne, hmem⟩ := authToken_of_decodeEnrollmentSession haccept
  have hsecret := hreg hmem
  obtain ⟨pre, body, post, hline, hd⟩ := hread
  rw [RedactionRegistry.write_eq] at hline
  intro hin
  have htame : Tame false (scrub (logLine line) reg.secrets) := (tame_logLine line).scrub hplain
  rw [hline, List.append_assoc, List.cons_append] at htame
  have hbody : material.authToken <:+: body :=
    infix_of_decodes hd htame.after_quote (hplain _ hsecret) hin
  have hgone : ¬ material.authToken <:+: scrub (logLine line) reg.secrets :=
    not_infix_scrub_of_mem hapart hne hsecret
  rw [hline] at hgone
  refine hgone (hbody.trans ?_)
  exact ⟨pre ++ ['"'], '"' :: post, by simp⟩

/-! ## Strings are read back -/

section Back

variable {t rest : Text}

theorem decodes_escapeChar (c : Char) (h : Decodes rest t) :
    Decodes (escapeChar c ++ rest) (c :: t) := by
  unfold escapeChar
  split_ifs with h1 h2 h3 h4 h5 h6 h7 h8
  · subst h1; exact .short rfl h
  · subst h2; exact .short rfl h
  · subst h3; exact .short rfl h
  · subst h4; exact .short rfl h
  · subst h5; exact .short rfl h
  · subst h6; exact .short rfl h
  · subst h7; exact .short rfl h
  · have hunicode := Decodes.unicode (hex4_control h8 rest) (Or.inl (by omega)) h
    rw [Char.ofNat_toNat] at hunicode
    exact hunicode
  · refine .char ?_ h
    rintro (hc | hc | hc)
    · exact h1 hc
    · exact h2 hc
    · exact h8 hc

theorem decodes_escape (t : Text) : Decodes (escape t) t := by
  induction t with
  | nil => exact .nil
  | cons c t ih => exact decodes_escapeChar c ih

/-- A string of a line can be read from it. -/
theorem reads_quoted (pre t post : Text) : Reads (pre ++ quoted t ++ post) t :=
  ⟨pre, escape t, post, by simp [quoted], decodes_escape t⟩

end Back

/-! ## Tokens that can be read -/

section Leaks

/-- A library that finds a code with the token in every frame. -/
def qrLibrary (token : Text) : QrLibrary Unit where
  width := fun _ => 200
  height := fun _ => 200
  decodeGrid := fun _ => some (.ok (logLine (.obj [("auth_token".toList, .str token)])))
  fromStr := fun _ => .ok ⟨"00000000-0000-0000-0000-000000000000".toList, token, "PEM".toList⟩
  parseUuid := fun _ => .ok 0

def decodedAt : DateTime := .ofSecs 0 DateTime.epoch_inRange

def sessionOf (token : Text) : EnrollmentSessionMaterial := ⟨0, token, "PEM".toList, decodedAt⟩

def tokenLine (token : Text) : Json := .obj [("message".toList, .str token)]

theorem redaction_survives_json_plain :
    Reads ((RedactionRegistry.new.register "tok-123".toList).write
        (logLine (tokenLine "tok-123".toList))) redactedPlaceholder ∧
      ¬ "tok-123".toList <:+: redactedPlaceholder := by
  have hread : Reads ((RedactionRegistry.new.register "tok-123".toList).write
      (logLine (tokenLine "tok-123".toList))) redactedPlaceholder :=
    reads_quoted "\x7b\"message\":".toList redactedPlaceholder "\x7d\n".toList
  refine ⟨hread, ?_⟩
  have haccept : decodeEnrollmentSession (qrLibrary "tok-123".toList) .new () decodedAt =
      (.ok (sessionOf "tok-123".toList), RedactionRegistry.new.register "tok-123".toList) := rfl
  exact redaction_survives_json (qrLibrary "tok-123".toList) haccept (List.Subset.refl _)
    (by decide) (apart_redactedPlaceholder (by decide) (by decide) (by decide)) _ hread

/-- The session with the token is accepted, and a line with a field that is the token can be read to
contain it. -/
def Leaks (token : Text) : Prop :=
  decodeEnrollmentSession (qrLibrary token) .new () decodedAt =
      (.ok (sessionOf token), RedactionRegistry.new.register token) ∧
    ∃ t, Reads ((RedactionRegistry.new.register token).write (logLine (tokenLine token))) t ∧
      token <:+: t

/-- A token inside the placeholder's word, and a token that JSON escapes. -/
theorem redaction_leaks : Leaks "RED".toList ∧ Leaks "a\"b".toList := by
  refine ⟨⟨rfl, redactedPlaceholder, ?_, by decide⟩, rfl, "a\"b".toList, ?_, by decide⟩
  · exact reads_quoted "\x7b\"message\":".toList redactedPlaceholder "\x7d\n".toList
  · exact reads_quoted "\x7b\"message\":".toList "a\"b".toList "\x7d\n".toList

end Leaks

end Perchstation
