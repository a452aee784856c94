import Mathlib.Data.List.DropRight
import Mathlib.Data.List.Nodup
import Perchstation.Lib.Replace

/-!
# Redaction — the registry of secrets and the redacting writer (`observability/tracing.rs`)

The registry, the writer that scrubs each log line, and what registers secrets: the decoded session's
`auth_token`, the body lines of the CSR and of the key, and those of the key file.  A text is a list
of characters; the formatter's lines are UTF-8, which `from_utf8_lossy` takes as they are.
-/

namespace Perchstation

open Replace

abbrev Text : Type := List Char

/-- The word inside the brackets. -/
def redactedWord : Text := "REDACTED".toList

/-- `REDACTED_PLACEHOLDER`. -/
def redactedPlaceholder : Text := '[' :: redactedWord ++ [']']

/-- `scrub`, for one secret. -/
def scrubOne (out secret : Text) : Text :=
  if secret ≠ [] ∧ secret <:+: out then replace secret redactedPlaceholder out else out

def scrub (text : Text) (secrets : List Text) : Text := secrets.foldl scrubOne text

/-! ## The registry -/

/-- `RedactionRegistry`: the secrets in the order of their registration, and the counter beside
them. -/
structure RedactionRegistry where
  secrets : List Text
  len : ℕ
  ne_nil : ∀ s ∈ secrets, s ≠ []
  nodup : secrets.Nodup
  len_eq : len = secrets.length

namespace RedactionRegistry

def new : RedactionRegistry := ⟨[], 0, by simp, List.nodup_nil, rfl⟩

/-- `register`: empty strings and known secrets are ignored. -/
def register (self : RedactionRegistry) (secret : Text) : RedactionRegistry :=
  if h : secret = [] ∨ secret ∈ self.secrets then self
  else
    { secrets := self.secrets ++ [secret]
      len := self.len + 1
      ne_nil := by
        intro s hs
        rcases List.mem_append.mp hs with hs | hs
        · exact self.ne_nil s hs
        · obtain rfl := List.mem_singleton.mp hs
          exact fun hnil => h (Or.inl hnil)
      nodup := self.nodup.append (List.nodup_singleton secret) (by
        intro s hs hs'
        obtain rfl := List.mem_singleton.mp hs'
        exact h (Or.inr hs))
      len_eq := by simp [self.len_eq] }

def registerAll (self : RedactionRegistry) (secrets : List Text) : RedactionRegistry :=
  secrets.foldl register self

def isEmpty (self : RedactionRegistry) : Bool := self.len = 0

/-- `RedactingWriter::write`: what leaves the process for the line `buf`. -/
def write (self : RedactionRegistry) (buf : Text) : Text :=
  if self.isEmpty then buf else scrub buf self.secrets

theorem secrets_register (self : RedactionRegistry) (secret : Text) :
    (self.register secret).secrets =
      if secret = [] ∨ secret ∈ self.secrets then self.secrets else self.secrets ++ [secret] := by
  unfold register
  split_ifs <;> rfl

/-- Registering forgets nothing. -/
theorem subset_register (self : RedactionRegistry) (secret : Text) :
    self.secrets ⊆ (self.register secret).secrets := by
  rw [secrets_register]
  split_ifs
  · exact List.Subset.refl _
  · exact List.subset_append_left _ _

theorem mem_register {self : RedactionRegistry} {secret : Text} (h : secret ≠ []) :
    secret ∈ (self.register secret).secrets := by
  rw [secrets_register]
  split_ifs with hmem
  · exact hmem.resolve_left h
  · exact List.mem_append_right _ (List.mem_singleton_self _)

/-- A registry without secrets scrubs nothing either way. -/
theorem mem_registerAll {self : RedactionRegistry} {secrets : List Text} {s : Text}
    (hne : s ≠ []) (h : s ∈ self.secrets ∨ s ∈ secrets) :
    s ∈ (self.registerAll secrets).secrets := by
  induction secrets generalizing self with
  | nil => exact h.resolve_right List.not_mem_nil
  | cons first rest ih =>
    show s ∈ ((self.register first).registerAll rest).secrets
    rcases h with hold | hnew
    · exact ih (Or.inl (self.subset_register first hold))
    · rcases List.mem_cons.mp hnew with rfl | hrest
      · exact ih (Or.inl (mem_register hne))
      · exact ih (Or.inr hrest)

theorem write_eq (self : RedactionRegistry) (buf : Text) : self.write buf = scrub buf self.secrets := by
  unfold write isEmpty
  split_ifs with h
  · have hnil : self.secrets = [] :=
      List.length_eq_zero_iff.mp (self.len_eq.symm.trans (by simpa using h))
    rw [hnil]
    rfl
  · rfl

end RedactionRegistry

/-! ## What is registered -/

/-- `char::is_whitespace`. -/
def isWhitespace (c : Char) : Bool :=
  (9 ≤ c.toNat ∧ c.toNat ≤ 13) ∨ (8192 ≤ c.toNat ∧ c.toNat ≤ 8202) ∨
    c.toNat ∈ [32, 133, 160, 5760, 8232, 8233, 8239, 8287, 12288]

/-- `str::trim`. -/
def trim (t : Text) : Text := (t.dropWhile isWhitespace).rdropWhile isWhitespace

/-- Take the line feed's carriage return off the lines that end with a line feed. -/
def chompAll : List Text → List Text
  | [] => []
  | [last] => if last = [] then [] else [last]
  | line :: rest => (if line.getLast? = some '\x0d' then line.dropLast else line) :: chompAll rest

/-- `str::lines`. -/
def lines (t : Text) : List Text := chompAll (pieces ['\n'] 0 t)

def isBoundary (line : Text) : Bool := "-----".toList.isPrefixOf line

/-- `pem_body_lines` of `csr.rs`. -/
def pemBodyLines (pem : Text) : List Text :=
  (((lines pem).filter fun line => !isBoundary line).map trim).filter fun line => !line.isEmpty

/-- The registrations of `build_from_keypair`. -/
def registerCsr (reg : RedactionRegistry) (csrPem keyPem : Text) : RedactionRegistry :=
  (reg.registerAll (pemBodyLines csrPem)).registerAll (pemBodyLines keyPem)

/-- `register_station_key_secrets` of `serve.rs`. -/
def registerStationKeySecrets (reg : RedactionRegistry) (keyPem : Text) : RedactionRegistry :=
  reg.registerAll (((lines keyPem).map trim).filter fun line => !line.isEmpty && !isBoundary line)

example : pemBodyLines "-----BEGIN X-----\r\nQUJD\r\nREVG \n\n-----END X-----\n".toList =
    ["QUJD".toList, "REVG".toList] := by decide

/-! ## What is scrubbed -/

section Scrub

variable {text out secret v : Text} {secrets : List Text}

/-- Scrubbing a secret makes no other one appear. -/
theorem not_infix_scrubOne (hv : Apart redactedPlaceholder v) (hne : v ≠ [])
    (h : ¬ v <:+: out) : ¬ v <:+: scrubOne out secret := by
  unfold scrubOne
  split_ifs with hif
  · exact hv.not_infix_replace hne hif.1 h
  · exact h

theorem not_infix_scrubOne_self (hs : Apart redactedPlaceholder secret) (hne : secret ≠ []) :
    ¬ secret <:+: scrubOne out secret := by
  unfold scrubOne
  split_ifs with hif
  · exact hs.not_infix_replace_self hne
  · exact fun hin => hif ⟨hne, hin⟩

theorem not_infix_scrub (hv : Apart redactedPlaceholder v) (hne : v ≠ []) (h : ¬ v <:+: text) :
    ¬ v <:+: scrub text secrets := by
  induction secrets generalizing text with
  | nil => exact h
  | cons s rest ih => exact ih (not_infix_scrubOne hv hne h)

/-- A secret that the placeholder can take no part in is not in a scrubbed text, whatever the other
secrets are. -/
theorem not_infix_scrub_of_mem (hv : Apart redactedPlaceholder v) (hne : v ≠ []) (h : v ∈ secrets) :
    ¬ v <:+: scrub text secrets := by
  induction secrets generalizing text with
  | nil => cases h
  | cons s rest ih =>
    rcases List.mem_cons.mp h with rfl | h
    · have hgone : ¬ v <:+: scrubOne text v := not_infix_scrubOne_self hv hne
      show ¬ v <:+: scrub (scrubOne text v) rest
      exact not_infix_scrub hv hne hgone
    · exact ih h

/-- Without brackets, and no part of the word inside them. -/
theorem apart_redactedPlaceholder (hopen : '[' ∉ v) (hclose : ']' ∉ v) (hword : ¬ v <:+: redactedWord) :
    Apart redactedPlaceholder v := apart_of_fences hopen hclose hword

/-- Once a CSR has been built, the writer lets out no body line of it or of its key. -/
theorem not_infix_write_registerCsr {reg : RedactionRegistry} {csrPem keyPem line : Text}
    (hline : line ∈ pemBodyLines csrPem ∨ line ∈ pemBodyLines keyPem) (hopen : '[' ∉ line)
    (hclose : ']' ∉ line) (hword : ¬ line <:+: redactedWord) (buf : Text) :
    ¬ line <:+: (registerCsr reg csrPem keyPem).write buf := by
  have hne : line ≠ [] := by
    have hfilled : line.isEmpty = false := by
      rcases hline with h | h <;> simpa using (List.mem_filter.mp h).2
    rintro rfl
    cases hfilled
  have hmem : line ∈ (registerCsr reg csrPem keyPem).secrets :=
    RedactionRegistry.mem_registerAll hne
      (hline.imp (fun h => RedactionRegistry.mem_registerAll hne (Or.inr h)) id)
  rw [RedactionRegistry.write_eq]
  exact not_infix_scrub_of_mem (apart_redactedPlaceholder hopen hclose hword) hne hmem

end Scrub

/-- For every registry of secrets without brackets none of which is a part of the word inside the
placeholder's: neither a scrubbed text nor what the writer lets out contains a registered secret. -/
theorem scrub_leaks_no_secret (reg : RedactionRegistry)
    (hopen : ∀ s ∈ reg.secrets, '[' ∉ s) (hclose : ∀ s ∈ reg.secrets, ']' ∉ s)
    (hword : ∀ s ∈ reg.secrets, ¬ s <:+: redactedWord) (text : Text) :
    ∀ s ∈ reg.secrets, ¬ s <:+: scrub text reg.secrets ∧ ¬ s <:+: reg.write text := by
  intro s hs
  have happ : Apart redactedPlaceholder s :=
    apart_redactedPlaceholder (hopen s hs) (hclose s hs) (hword s hs)
  have hscrub : ¬ s <:+: scrub text reg.secrets := not_infix_scrub_of_mem happ (reg.ne_nil s hs) hs
  refine ⟨hscrub, ?_⟩
  rw [RedactionRegistry.write_eq]
  exact hscrub

/-- Three secrets that overlap, one inside another. -/
def overlappingRegistry : RedactionRegistry :=
  ((RedactionRegistry.new.register "bc".toList).register "abcd".toList).register "ab".toList

theorem scrub_leaks_no_secret_overlapping :
    ¬ "ab".toList <:+: scrub "xabcdab".toList overlappingRegistry.secrets ∧
      ¬ "ab".toList <:+: overlappingRegistry.write "xabcdab".toList :=
  scrub_leaks_no_secret overlappingRegistry (by decide) (by decide) (by decide) _ _ (by decide)

end Perchstation
