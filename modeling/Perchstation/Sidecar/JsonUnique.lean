import Perchstation.Sidecar.JsonText

/-!
# JSON uniqueness — a text is of one value

The next character after a value tells where the value ends, so two values that begin the same text
end at the same place; from there on the rest of the text agrees too.
-/

namespace Perchstation

/-- Two splits of a list at the first element that is not of `P` agree. -/
theorem span_unique {α : Type} {P : α → Prop} {a a' r r' : List α} (ha : ∀ x ∈ a, P x)
    (ha' : ∀ x ∈ a', P x) (hr : ∀ x, r.head? = some x → ¬ P x)
    (hr' : ∀ x, r'.head? = some x → ¬ P x) (h : a ++ r = a' ++ r') : a = a' ∧ r = r' := by
  induction a generalizing a' with
  | nil =>
    cases a' with
    | nil => exact ⟨rfl, h⟩
    | cons x a' =>
      exact absurd (ha' x List.mem_cons_self) (hr x (by rw [List.nil_append] at h; rw [h]; rfl))
  | cons x a ih =>
    cases a' with
    | nil =>
      exact absurd (ha x List.mem_cons_self) (hr' x (by rw [List.nil_append] at h; rw [← h]; rfl))
    | cons y a' =>
      obtain ⟨rfl, htail⟩ := List.cons.inj h
      obtain ⟨rfl, rfl⟩ := ih (fun z hz => ha z (List.mem_cons_of_mem _ hz))
        (fun z hz => ha' z (List.mem_cons_of_mem _ hz)) htail
      exact ⟨rfl, rfl⟩

/-! ## Strings -/

/-- The digits of an escape are the next four characters. -/
theorem hex4_unique {body body' r r' : Text} {n n' : ℕ} (h : hex4 body = some n)
    (h' : hex4 body' = some n') (heq : body ++ r = body' ++ r') :
    n = n' ∧ body.take 4 = body'.take 4 ∧ body.drop 4 ++ r = body'.drop 4 ++ r' := by
  obtain ⟨digits, hbody, hlen, -⟩ := digits_of_hex4 h
  obtain ⟨digits', hbody', hlen', -⟩ := digits_of_hex4 h'
  rw [hbody, hbody', List.append_assoc, List.append_assoc] at heq
  obtain ⟨rfl, hdrop⟩ := List.append_inj heq (hlen.trans hlen'.symm)
  have htake : body.take 4 = digits := by
    rw [hbody, List.take_append_of_le_length (by omega), List.take_of_length_le (by omega)]
  have htake' : body'.take 4 = digits := by
    rw [hbody', List.take_append_of_le_length (by omega), List.take_of_length_le (by omega)]
  refine ⟨?_, htake.trans htake'.symm, hdrop⟩
  rw [← hex4_take, htake] at h
  rw [← hex4_take, htake'] at h'
  exact Option.some.inj (h.symm.trans h')

theorem eq_of_take_drop {a b : Text} (h : a.take 4 = b.take 4) (h' : a.drop 4 = b.drop 4) :
    a = b := by
  rw [← List.take_append_drop 4 a, h, h', List.take_append_drop]

/-- The first quote that is not escaped ends a string. -/
theorem decodes_unique {body body' t t' r r' : Text} (h : Decodes body t) (h' : Decodes body' t')
    (heq : body ++ '"' :: r = body' ++ '"' :: r') : body = body' ∧ t = t' ∧ r = r' := by
  induction h generalizing body' t' with
  | nil =>
    cases h' with
    | nil => exact ⟨rfl, rfl, (List.cons.inj heq).2⟩
    | char hc _ => exact absurd (Or.inl (List.cons.inj heq).1.symm) hc
    | short => cases (List.cons.inj heq).1
    | unicode => cases (List.cons.inj heq).1
    | pair => cases (List.cons.inj heq).1
  | @char c body t hc _ ih =>
    cases h' with
    | nil => exact absurd (Or.inl (List.cons.inj heq).1) hc
    | char hc' hrest =>
      obtain ⟨rfl, htail⟩ := List.cons.inj heq
      obtain ⟨rfl, rfl, rfl⟩ := ih hrest htail
      exact ⟨rfl, rfl, rfl⟩
    | short => exact absurd (Or.inr (Or.inl (List.cons.inj heq).1)) hc
    | unicode => exact absurd (Or.inr (Or.inl (List.cons.inj heq).1)) hc
    | pair => exact absurd (Or.inr (Or.inl (List.cons.inj heq).1)) hc
  | @short e c body t he _ ih =>
    -- after a backslash the next character tells the escapes apart
    cases h' with
    | nil => cases (List.cons.inj heq).1
    | char hc' _ => exact absurd (Or.inr (Or.inl (List.cons.inj heq).1.symm)) hc'
    | short he' hrest =>
      obtain ⟨rfl, htail⟩ := List.cons.inj (List.cons.inj heq).2
      obtain rfl := Option.some.inj (he.symm.trans he')
      obtain ⟨rfl, rfl, rfl⟩ := ih hrest htail
      exact ⟨rfl, rfl, rfl⟩
    | unicode =>
      obtain ⟨rfl, -⟩ := List.cons.inj (List.cons.inj heq).2
      cases he
    | pair =>
      obtain ⟨rfl, -⟩ := List.cons.inj (List.cons.inj heq).2
      cases he
  | @unicode n body t hn hrange _ ih =>
    cases h' with
    | nil => cases (List.cons.inj heq).1
    | char hc' _ => exact absurd (Or.inr (Or.inl (List.cons.inj heq).1.symm)) hc'
    | short he' _ =>
      obtain ⟨rfl, -⟩ := List.cons.inj (List.cons.inj heq).2
      cases he'
    | unicode hn' _ hrest =>
      obtain ⟨-, htail⟩ := List.cons.inj (List.cons.inj heq).2
      obtain ⟨rfl, htake, hdrop⟩ := hex4_unique hn hn' htail
      obtain ⟨hd, rfl, rfl⟩ := ih hrest hdrop
      rw [eq_of_take_drop htake hd]
      exact ⟨rfl, rfl, rfl⟩
    | pair hn' hhi =>
      -- a high surrogate is no escape on its own
      obtain ⟨-, htail⟩ := List.cons.inj (List.cons.inj heq).2
      obtain ⟨rfl, -, -⟩ := hex4_unique hn hn' htail
      omega
  | @pair hi lo body low t hhi hrange hlow hlo hrange' _ ih =>
    cases h' with
    | nil => cases (List.cons.inj heq).1
    | char hc' _ => exact absurd (Or.inr (Or.inl (List.cons.inj heq).1.symm)) hc'
    | short he' _ =>
      obtain ⟨rfl, -⟩ := List.cons.inj (List.cons.inj heq).2
      cases he'
    | unicode hn' hrange'' =>
      -- nor is it the escape that the pair starts with
      obtain ⟨-, htail⟩ := List.cons.inj (List.cons.inj heq).2
      obtain ⟨rfl, -, -⟩ := hex4_unique hhi hn' htail
      omega
    | pair hhi' _ hlow' hlo' _ hrest =>
      obtain ⟨-, htail⟩ := List.cons.inj (List.cons.inj heq).2
      obtain ⟨rfl, htake, hdrop⟩ := hex4_unique hhi hhi' htail
      rw [hlow, hlow'] at hdrop
      obtain ⟨-, hdrop'⟩ := List.cons.inj (List.cons.inj hdrop).2
      obtain ⟨rfl, htake', hdrop''⟩ := hex4_unique hlo hlo' hdrop'
      obtain ⟨hd, rfl, rfl⟩ := ih hrest hdrop''
      have hlows := eq_of_take_drop htake' hd
      rw [eq_of_take_drop htake (by rw [hlow, hlow', hlows])]
      exact ⟨rfl, rfl, rfl⟩

/-! ## Values -/

/-- No scalar goes on with the text. -/
def Stops (r : Text) : Prop := ∀ c, r.head? = some c → ¬ IsBareChar c

/-- Whitespace does not go on with the text, and no scalar does. -/
def Marks (r : Text) : Prop := ∃ c t, r = c :: t ∧ ¬ IsBareChar c ∧ ¬ IsWs [c]

theorem isWs_singleton {c : Char} : IsWs [c] ↔ c = ' ' ∨ c = '\n' ∨ c = '\x0d' ∨ c = '\t' := by
  simp [IsWs]

theorem not_isBareChar_of_isWs {a : Text} (ha : IsWs a) {c : Char} (hc : c ∈ a) :
    ¬ IsBareChar c := by
  rcases ha c hc with rfl | rfl | rfl | rfl <;> decide

theorem marks_cons {c : Char} (t : Text) (h : c = ',' ∨ c = ':' ∨ c = ']' ∨ c = '}') :
    Marks (c :: t) := by
  refine ⟨c, t, rfl, ?_, ?_⟩
  · rcases h with rfl | rfl | rfl | rfl <;> decide
  · rw [isWs_singleton]
    rcases h with rfl | rfl | rfl | rfl <;> decide

theorem Marks.stops {r : Text} (h : Marks r) {a : Text} (ha : IsWs a) : Stops (a ++ r) := by
  obtain ⟨c, t, rfl, hc, -⟩ := h
  intro x hx
  cases a with
  | nil =>
    obtain rfl := Option.some.inj hx
    exact hc
  | cons y a =>
    obtain rfl := Option.some.inj hx
    exact not_isBareChar_of_isWs ha List.mem_cons_self

/-- The whitespace before two texts that do not go on with it is the same. -/
theorem ws_unique {a a' r r' : Text} (ha : IsWs a) (ha' : IsWs a')
    (hr : ∀ c, r.head? = some c → ¬ IsWs [c]) (hr' : ∀ c, r'.head? = some c → ¬ IsWs [c])
    (h : a ++ r = a' ++ r') : a = a' ∧ r = r' :=
  span_unique (P := fun c => IsWs [c]) (fun c hc => isWs_singleton.mpr (ha c hc))
    (fun c hc => isWs_singleton.mpr (ha' c hc)) hr hr' h

theorem Json.Leads.not_isWs {c : Char} {j : Json} (h : j.Leads c) : ¬ IsWs [c] := by
  rw [isWs_singleton]
  cases j with
  | bare =>
    rintro (rfl | rfl | rfl | rfl) <;> exact absurd (show IsBareChar _ from h) (by decide)
  | str => cases h; decide
  | arr => cases h; decide
  | obj => cases h; decide

theorem not_isWs_of_isValue {v r : Text} {j : Json} (h : IsValue v j) :
    ∀ c, (v ++ r).head? = some c → ¬ IsWs [c] := by
  obtain ⟨c, t, rfl, hc⟩ := exists_lead h
  rintro _ ⟨⟩
  exact hc.not_isWs

theorem Marks.not_isWs {r : Text} (h : Marks r) : ∀ c, r.head? = some c → ¬ IsWs [c] := by
  obtain ⟨c, t, rfl, -, hc⟩ := h
  rintro _ ⟨⟩
  exact hc

/-- Values that begin the same text, before something that ends scalars, are the same. -/
def OneWay (j : Json) : Prop :=
  ∀ {v v' r r' : Text} {j' : Json}, IsValue v j → IsValue v' j' → Stops r → Stops r' →
    v ++ r = v' ++ r' → v = v' ∧ j = j' ∧ r = r'

def OneWayItems (items : List Json) : Prop :=
  ∀ {s s' r r' : Text} {items' : List Json}, IsItems s items → IsItems s' items' →
    s ++ ']' :: r = s' ++ ']' :: r' → s = s' ∧ items = items' ∧ r = r'

def OneWayFields (fields : List (Text × Json)) : Prop :=
  ∀ {s s' r r' : Text} {fields' : List (Text × Json)}, IsFields s fields → IsFields s' fields' →
    s ++ '}' :: r = s' ++ '}' :: r' → s = s' ∧ fields = fields' ∧ r = r'

/-- Values that begin the same text begin with the same character. -/
theorem leads_of_eq {v v' r r' : Text} {j j' : Json} (h : IsValue v j) (h' : IsValue v' j')
    (heq : v ++ r = v' ++ r') : ∃ c, j.Leads c ∧ j'.Leads c := by
  obtain ⟨c, t, rfl, hc⟩ := exists_lead h
  obtain ⟨c', t', rfl, hc'⟩ := exists_lead h'
  obtain ⟨rfl, -⟩ := List.cons.inj heq
  exact ⟨c, hc, hc'⟩

theorem oneWay_bare (t : BareText) : OneWay (.bare t) := by
  intro v v' r r' j' h h' hr hr' heq
  obtain ⟨c, hc, hc'⟩ := leads_of_eq h h' heq
  have hbare : ∀ x, x = '"' ∨ x = '[' ∨ x = '{' → ¬ IsBareChar x := by
    rintro _ (rfl | rfl | rfl) <;> decide
  cases j' with
  | bare t' =>
    cases h with
    | bare hs =>
      cases h' with
      | bare hs' =>
        obtain ⟨htext, rfl⟩ := span_unique (isBareChar_of_isScalar hs).2
          (isBareChar_of_isScalar hs').2 hr hr' heq
        obtain ⟨text, plain⟩ := t
        obtain rfl : text = t'.text := htext
        exact ⟨rfl, rfl, rfl⟩
  | str => exact absurd hc (hbare c (Or.inl hc'))
  | arr => exact absurd hc (hbare c (Or.inr (Or.inl hc')))
  | obj => exact absurd hc (hbare c (Or.inr (Or.inr hc')))

theorem oneWay_str (t : Text) : OneWay (.str t) := by
  intro v v' r r' j' h h' hr hr' heq
  obtain ⟨c, rfl, hc'⟩ := leads_of_eq h h' heq
  cases j' with
  | bare => exact absurd (show IsBareChar '"' from hc') (by decide)
  | arr => cases hc'
  | obj => cases hc'
  | str t' =>
    cases h with
    | str hd =>
      cases h' with
      | str hd' =>
        simp only [List.append_assoc, List.cons_append, List.nil_append] at heq
        obtain ⟨rfl, rfl, rfl⟩ := decodes_unique hd hd' (List.cons.inj heq).2
        exact ⟨rfl, rfl, rfl⟩

/-- A value with whitespace around it, before a mark. -/
theorem oneWay_padded {j j' : Json} {a v b x a' v' b' x' : Text} (hj : OneWay j) (ha : IsWs a)
    (hv : IsValue v j) (hb : IsWs b) (hx : Marks x) (ha' : IsWs a') (hv' : IsValue v' j')
    (hb' : IsWs b') (hx' : Marks x') (heq : a ++ v ++ b ++ x = a' ++ v' ++ b' ++ x') :
    a ++ v ++ b = a' ++ v' ++ b' ∧ j = j' ∧ x = x' := by
  simp only [List.append_assoc] at heq
  obtain ⟨rfl, h1⟩ := ws_unique ha ha' (not_isWs_of_isValue hv) (not_isWs_of_isValue hv') heq
  obtain ⟨rfl, rfl, h2⟩ := hj hv hv' (hx.stops hb) (hx'.stops hb') h1
  obtain ⟨rfl, rfl⟩ := ws_unique hb hb' hx.not_isWs hx'.not_isWs h2
  exact ⟨rfl, rfl, rfl⟩

theorem oneWayItems_nil : OneWayItems [] := by
  intro s s' r r' items' h
  cases h

theorem oneWayItems_cons {j : Json} {items : List Json} (hj : OneWay j) (hitems : OneWayItems items) :
    OneWayItems (j :: items) := by
  have hcomma : ∀ t, Marks (',' :: t) := fun t => marks_cons t (Or.inl rfl)
  have hclose : ∀ t, Marks (']' :: t) := fun t => marks_cons t (Or.inr (Or.inr (Or.inl rfl)))
  intro s s' r r' items' h h' heq
  cases h with
  | last ha hv hb =>
    cases h' with
    | last ha' hv' hb' =>
      obtain ⟨hs, rfl, hr⟩ := oneWay_padded hj ha hv hb (hclose r) ha' hv' hb' (hclose r') heq
      exact ⟨hs, rfl, (List.cons.inj hr).2⟩
    | more ha' hv' hb' hrest' =>
      rw [List.append_assoc _ (',' :: _)] at heq
      obtain ⟨-, -, hr⟩ := oneWay_padded hj ha hv hb (hclose r) ha' hv' hb' (hcomma _) heq
      cases (List.cons.inj hr).1
  | more ha hv hb hrest =>
    rw [List.append_assoc _ (',' :: _)] at heq
    cases h' with
    | last ha' hv' hb' =>
      obtain ⟨-, -, hr⟩ := oneWay_padded hj ha hv hb (hcomma _) ha' hv' hb' (hclose r') heq
      cases (List.cons.inj hr).1
    | more ha' hv' hb' hrest' =>
      rw [List.append_assoc _ (',' :: _)] at heq
      obtain ⟨hs, rfl, hr⟩ := oneWay_padded hj ha hv hb (hcomma _) ha' hv' hb' (hcomma _) heq
      obtain ⟨rfl, rfl, rfl⟩ := hitems hrest hrest' (List.cons.inj hr).2
      exact ⟨by rw [hs], rfl, rfl⟩

/-- The name of a field with what is around it, up to the value. -/
theorem oneWay_name {a key k b x a' key' k' b' x' : Text} (ha : IsWs a) (hk : Decodes key k)
    (hb : IsWs b) (ha' : IsWs a') (hk' : Decodes key' k') (hb' : IsWs b')
    (heq : a ++ ('"' :: key ++ ['"']) ++ b ++ ':' :: x =
      a' ++ ('"' :: key' ++ ['"']) ++ b' ++ ':' :: x') :
    a ++ ('"' :: key ++ ['"']) ++ b = a' ++ ('"' :: key' ++ ['"']) ++ b' ∧ k = k' ∧ x = x' := by
  have hcolon : ∀ t, Marks (':' :: t) := fun t => marks_cons t (Or.inr (Or.inl rfl))
  obtain ⟨hname, hkeys, hx⟩ := oneWay_padded (oneWay_str k) ha (.str hk) hb (hcolon x) ha' (.str hk')
    hb' (hcolon x') heq
  exact ⟨hname, Json.str.inj hkeys, (List.cons.inj hx).2⟩

theorem oneWayFields_nil : OneWayFields [] := by
  intro s s' r r' fields' h
  cases h

/-- A field with its name, before a mark. -/
theorem oneWay_field {j j' : Json} {a key k b c v d x a' key' k' b' c' v' d' x' : Text}
    (hj : OneWay j) (ha : IsWs a) (hk : Decodes key k) (hb : IsWs b) (hc : IsWs c)
    (hv : IsValue v j) (hd : IsWs d) (hx : Marks x) (ha' : IsWs a') (hk' : Decodes key' k')
    (hb' : IsWs b') (hc' : IsWs c') (hv' : IsValue v' j') (hd' : IsWs d') (hx' : Marks x')
    (heq : a ++ ('"' :: key ++ ['"']) ++ b ++ ':' :: c ++ v ++ d ++ x =
      a' ++ ('"' :: key' ++ ['"']) ++ b' ++ ':' :: c' ++ v' ++ d' ++ x') :
    a ++ ('"' :: key ++ ['"']) ++ b ++ ':' :: c ++ v ++ d =
      a' ++ ('"' :: key' ++ ['"']) ++ b' ++ ':' :: c' ++ v' ++ d' ∧ k = k' ∧ j = j' ∧ x = x' := by
  have hsplit : ∀ {n c v d x : Text}, n ++ ':' :: c ++ v ++ d ++ x = n ++ ':' :: (c ++ v ++ d ++ x) :=
    by simp
  rw [hsplit, hsplit] at heq
  obtain ⟨hname, rfl, hvalue⟩ := oneWay_name ha hk hb ha' hk' hb' heq
  obtain ⟨hpadded, rfl, rfl⟩ := oneWay_padded hj hc hv hd hx hc' hv' hd' hx' hvalue
  refine ⟨?_, rfl, rfl, rfl⟩
  have hcut : ∀ {n c v d : Text}, n ++ ':' :: c ++ v ++ d = n ++ ':' :: (c ++ v ++ d) := by simp
  rw [hcut, hcut, hname, hpadded]

theorem oneWayFields_cons {k : Text} {j : Json} {fields : List (Text × Json)} (hj : OneWay j)
    (hfields : OneWayFields fields) : OneWayFields ((k, j) :: fields) := by
  have hcomma : ∀ t, Marks (',' :: t) := fun t => marks_cons t (Or.inl rfl)
  have hclose : ∀ t, Marks ('}' :: t) := fun t => marks_cons t (Or.inr (Or.inr (Or.inr rfl)))
  intro s s' r r' fields' h h' heq
  cases h with
  | last ha hk hb hc hv hd =>
    cases h' with
    | last ha' hk' hb' hc' hv' hd' =>
      obtain ⟨hs, rfl, rfl, hr⟩ := oneWay_field hj ha hk hb hc hv hd (hclose r) ha' hk' hb' hc' hv'
        hd' (hclose r') heq
      exact ⟨hs, rfl, (List.cons.inj hr).2⟩
    | more ha' hk' hb' hc' hv' hd' hrest' =>
      rw [List.append_assoc _ (',' :: _)] at heq
      obtain ⟨-, -, -, hr⟩ := oneWay_field hj ha hk hb hc hv hd (hclose r) ha' hk' hb' hc' hv'
        hd' (hcomma _) heq
      cases (List.cons.inj hr).1
  | more ha hk hb hc hv hd hrest =>
    rw [List.append_assoc _ (',' :: _)] at heq
    cases h' with
    | last ha' hk' hb' hc' hv' hd' =>
      obtain ⟨-, -, -, hr⟩ := oneWay_field hj ha hk hb hc hv hd (hcomma _) ha' hk' hb' hc' hv'
        hd' (hclose r') heq
      cases (List.cons.inj hr).1
    | more ha' hk' hb' hc' hv' hd' hrest' =>
      rw [List.append_assoc _ (',' :: _)] at heq
      obtain ⟨hs, rfl, rfl, hr⟩ := oneWay_field hj ha hk hb hc hv hd (hcomma _) ha' hk' hb' hc' hv'
        hd' (hcomma _) heq
      obtain ⟨rfl, rfl, rfl⟩ := hfields hrest hrest' (List.cons.inj hr).2
      exact ⟨by rw [hs], rfl, rfl⟩

/-- Items and fields begin, after whitespace, with something that does not close the brackets. -/
theorem exists_first_item {s : Text} {items : List Json} (h : IsItems s items) :
    ∃ a c t, IsWs a ∧ s = a ++ c :: t ∧ ¬ IsWs [c] ∧ c ≠ ']' := by
  have hfirst : ∀ {a v w : Text} {j : Json}, IsWs a → IsValue v j →
      ∃ a' c t, IsWs a' ∧ a ++ v ++ w = a' ++ c :: t ∧ ¬ IsWs [c] ∧ c ≠ ']' := by
    intro a v w j ha hv
    obtain ⟨c, t, rfl, hc⟩ := exists_lead hv
    refine ⟨a, c, t ++ w, ha, by simp, hc.not_isWs, ?_⟩
    rintro rfl
    cases j with
    | bare => exact absurd (show IsBareChar ']' from hc) (by decide)
    | str => cases hc
    | arr => cases hc
    | obj => cases hc
  cases h with
  | last ha hv _ => exact hfirst ha hv
  | more ha hv _ _ =>
    rw [List.append_assoc]
    exact hfirst ha hv

theorem exists_first_field {s : Text} {fields : List (Text × Json)} (h : IsFields s fields) :
    ∃ a c t, IsWs a ∧ s = a ++ c :: t ∧ ¬ IsWs [c] ∧ c ≠ '}' := by
  have hquote : ¬ IsWs ['"'] ∧ '"' ≠ '}' := by
    rw [isWs_singleton]
    decide
  cases h with
  | last ha => exact ⟨_, '"', _, ha, by simp only [List.append_assoc, List.cons_append]; rfl, hquote⟩
  | more ha => exact ⟨_, '"', _, ha, by simp only [List.append_assoc, List.cons_append]; rfl, hquote⟩

theorem not_ws_and_first {w r x : Text} {close : Char} (hw : IsWs w) (hclose : ¬ IsWs [close])
    (h : ∃ a c t, IsWs a ∧ x = a ++ c :: t ∧ ¬ IsWs [c] ∧ c ≠ close) {y : Text}
    (heq : w ++ close :: r = x ++ y) : False := by
  obtain ⟨a, c, t, ha, rfl, hc, hne⟩ := h
  rw [List.append_assoc] at heq
  obtain ⟨-, hcons⟩ := ws_unique hw ha (by rintro _ ⟨⟩; exact hclose) (by rintro _ ⟨⟩; exact hc) heq
  exact hne (List.cons.inj hcons).1.symm

theorem ws_close_unique {w w' r r' : Text} {close : Char} (hw : IsWs w) (hw' : IsWs w')
    (hclose : ¬ IsWs [close]) (heq : w ++ close :: r = w' ++ close :: r') : w = w' ∧ r = r' := by
  obtain ⟨rfl, hr⟩ := ws_unique hw hw' (by rintro _ ⟨⟩; exact hclose) (by rintro _ ⟨⟩; exact hclose)
    heq
  exact ⟨rfl, (List.cons.inj hr).2⟩

theorem oneWay_arr {items : List Json} (hitems : OneWayItems items) : OneWay (.arr items) := by
  have hclose : ¬ IsWs [']'] := by
    rw [isWs_singleton]
    decide
  intro v v' r r' j' h h' _ _ heq
  obtain ⟨c, rfl, hc'⟩ := leads_of_eq h h' heq
  cases j' with
  | bare => exact absurd (show IsBareChar '[' from hc') (by decide)
  | str => cases hc'
  | obj => cases hc'
  | arr items' =>
    have hopen : ∀ {s s' : Text}, '[' :: s ++ [']'] ++ r = '[' :: s' ++ [']'] ++ r' →
        s ++ ']' :: r = s' ++ ']' :: r' := by
      intro s s' heq
      simpa using heq
    cases h with
    | noItems hw =>
      cases h' with
      | noItems hw' =>
        obtain ⟨rfl, rfl⟩ := ws_close_unique hw hw' hclose (hopen heq)
        exact ⟨rfl, rfl, rfl⟩
      | items hs' => exact (not_ws_and_first hw hclose (exists_first_item hs') (hopen heq)).elim
    | items hs =>
      cases h' with
      | noItems hw' =>
        exact (not_ws_and_first hw' hclose (exists_first_item hs) (hopen heq).symm).elim
      | items hs' =>
        obtain ⟨rfl, rfl, rfl⟩ := hitems hs hs' (hopen heq)
        exact ⟨rfl, rfl, rfl⟩

theorem oneWay_obj {fields : List (Text × Json)} (hfields : OneWayFields fields) :
    OneWay (.obj fields) := by
  have hclose : ¬ IsWs ['}'] := by
    rw [isWs_singleton]
    decide
  intro v v' r r' j' h h' _ _ heq
  obtain ⟨c, rfl, hc'⟩ := leads_of_eq h h' heq
  cases j' with
  | bare => exact absurd (show IsBareChar '{' from hc') (by decide)
  | str => cases hc'
  | arr => cases hc'
  | obj fields' =>
    have hopen : ∀ {s s' : Text}, '{' :: s ++ ['}'] ++ r = '{' :: s' ++ ['}'] ++ r' →
        s ++ '}' :: r = s' ++ '}' :: r' := by
      intro s s' heq
      simpa using heq
    cases h with
    | noFields hw =>
      cases h' with
      | noFields hw' =>
        obtain ⟨rfl, rfl⟩ := ws_close_unique hw hw' hclose (hopen heq)
        exact ⟨rfl, rfl, rfl⟩
      | fields hs' => exact (not_ws_and_first hw hclose (exists_first_field hs') (hopen heq)).elim
    | fields hs =>
      cases h' with
      | noFields hw' =>
        exact (not_ws_and_first hw' hclose (exists_first_field hs) (hopen heq).symm).elim
      | fields hs' =>
        obtain ⟨rfl, rfl, rfl⟩ := hfields hs hs' (hopen heq)
        exact ⟨rfl, rfl, rfl⟩

mutual

theorem oneWay : ∀ j : Json, OneWay j
  | .bare t => oneWay_bare t
  | .str t => oneWay_str t
  | .arr items => oneWay_arr (oneWay_items items)
  | .obj fields => oneWay_obj (oneWay_fields fields)

theorem oneWay_items : ∀ items : List Json, OneWayItems items
  | [] => oneWayItems_nil
  | item :: rest => oneWayItems_cons (oneWay item) (oneWay_items rest)

theorem oneWay_fields : ∀ fields : List (Text × Json), OneWayFields fields
  | [] => oneWayFields_nil
  | (_, value) :: rest => oneWayFields_cons (oneWay value) (oneWay_fields rest)

end

/-- A text is of one value. -/
theorem isText_unique {t : Text} {j j' : Json} (h : IsText t j) (h' : IsText t j') : j = j' := by
  obtain ⟨a, v, b, ha, hb, hv, rfl⟩ := h
  obtain ⟨a', v', b', ha', hb', hv', heq⟩ := h'
  simp only [List.append_assoc] at heq
  obtain ⟨rfl, h1⟩ := ws_unique ha ha' (not_isWs_of_isValue hv) (not_isWs_of_isValue hv') heq
  have hstops : ∀ {w : Text}, IsWs w → Stops w := by
    intro w hw c hc
    cases w with
    | nil => cases hc
    | cons d w =>
      obtain rfl := Option.some.inj hc
      exact not_isBareChar_of_isWs hw List.mem_cons_self
  exact (oneWay j hv hv' (hstops hb) (hstops hb') h1).2.1

end Perchstation
