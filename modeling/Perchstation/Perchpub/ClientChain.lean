import Perchstation.Enrollment.Confirm
import Perchstation.Lib.Utf8
import Perchstation.Observability.Redaction

/-!
# Client chain — the intermediate that uploads present (`perchpub/client.rs`)

`pem_cert_blocks` cuts a bundle into its certificate blocks line by line, and
`issuing_intermediate_pem` takes the first block whose subject is the leaf's issuer.  A bundle is given
by its pieces, blocks and other lines, with the line end of each line.  Reading certificates is
third-party code and a parameter (`CertReader`).
-/

namespace Perchstation

namespace ClientChain

open Utf8 Confirm

def beginMarker : Text := "-----BEGIN CERTIFICATE-----".toList

def endMarker : Text := "-----END CERTIFICATE-----".toList

/-- One line of `pem_cert_blocks`, over the blocks so far and the block that is open. -/
def scanLine (st : List Text × Option Text) (line : Text) : List Text × Option Text :=
  match if beginMarker <+: line then some [] else st.2 with
  | none => (st.1, none)
  | some buf =>
    if endMarker <+: line then (st.1 ++ [buf ++ line ++ ['\n']], none)
    else (st.1, some (buf ++ line ++ ['\n']))

def pemCertBlocks (pem : List UInt8) : List Text :=
  ((lines (fromUtf8Lossy pem)).foldl scanLine ([], none)).1

/-- `as_bytes`. -/
def asBytes (t : Text) : List UInt8 := t.flatMap String.utf8EncodeChar

/-- The PEM parser on bytes, and the names in a certificate. -/
structure CertReader (x : X509) where
  /-- `parse_x509_pem`: the contents of the first PEM block. -/
  parsePem : List UInt8 → Except String Der
  /-- `subject.as_raw` and `issuer.as_raw`. -/
  subject : x.Cert → List UInt8
  issuer : x.Cert → List UInt8

/-- `parse_x509_pem` and `parse_x509`; why a text cannot be read is dropped. -/
def CertReader.read {x : X509} (r : CertReader x) (pem : List UInt8) : Option x.Cert :=
  match r.parsePem pem with
  | .error _ => none
  | .ok der =>
    match x.parseCert der with
    | .error _ => none
    | .ok cert => some cert

/-- The test of the loop of `issuing_intermediate_pem`; blocks that cannot be read are passed over. -/
def isIssuer {x : X509} (r : CertReader x) (leaf : x.Cert) (block : Text) : Bool :=
  match r.read (asBytes block) with
  | none => false
  | some cert => r.subject cert = r.issuer leaf ∧ r.subject cert ≠ r.issuer cert

def issuingIntermediatePem {x : X509} (r : CertReader x) (leafPem caChainPem : List UInt8) :
    Option Text :=
  match r.read leafPem with
  | none => none
  | some leaf => (pemCertBlocks caChainPem).find? (isIssuer r leaf)

/-! ## Bundles -/

inductive LineEnd
  | lf
  | crlf
  deriving DecidableEq

def LineEnd.bytes : LineEnd → List UInt8
  | .lf => [10]
  | .crlf => [13, 10]

/-- A line and its end.  A carriage return right before a line feed belongs to the end. -/
structure Line where
  content : List UInt8
  ending : LineEnd
  noFeed : 10 ∉ content
  noReturn : ending = .lf → content.getLast? ≠ some 13

def Line.bytes (l : Line) : List UInt8 := l.content ++ l.ending.bytes

def Line.text (l : Line) : Text := fromUtf8Lossy l.content

/-- The line begins or ends a certificate block. -/
def Line.Armor (l : Line) : Prop :=
  asBytes beginMarker <+: l.content ∨ asBytes endMarker <+: l.content

instance (l : Line) : Decidable l.Armor := inferInstanceAs (Decidable (_ ∨ _))

/-- A certificate block. -/
structure Block where
  opening : Line
  body : List Line
  closing : Line
  opens : asBytes beginMarker <+: opening.content
  plain : ∀ l ∈ body, ¬ l.Armor
  closes : asBytes endMarker <+: closing.content

def Block.lines (b : Block) : List Line := b.opening :: b.body ++ [b.closing]

/-- Lines, each with a line feed. -/
def joined (ls : List Line) : Text := ls.flatMap fun l => l.text ++ ['\n']

/-- The block with its line ends normalised. -/
def Block.text (b : Block) : Text := joined b.lines

inductive Piece
  | other (line : Line) (h : ¬ line.Armor)
  | block (b : Block)

def Piece.lines : Piece → List Line
  | .other line _ => [line]
  | .block b => b.lines

def Piece.block? : Piece → Option Block
  | .other _ _ => none
  | .block b => some b

/-- The bytes of the lines, the last one's end included or not. -/
def render (ended : Bool) : List Line → List UInt8
  | [] => []
  | [l] => if ended then l.bytes else l.content
  | l :: l' :: rest => l.bytes ++ render ended (l' :: rest)

/-- A file with certificate blocks; `ended` says that its last line has a line end. -/
structure Bundle where
  pieces : List Piece
  ended : Bool
  last : ended = false → ∀ l, (pieces.flatMap Piece.lines).getLast? = some l → l.content ≠ []

namespace Bundle

def lines (b : Bundle) : List Line := b.pieces.flatMap Piece.lines

def bytes (b : Bundle) : List UInt8 := render b.ended b.lines

def blocks (b : Bundle) : List Block := b.pieces.filterMap Piece.block?

end Bundle

/-! ## The lines of a bundle -/

section Lines

variable {t rest : Text}

theorem lines_line (h : '\n' ∉ t) : lines (t ++ '\n' :: rest) =
    (if t.getLast? = some '\x0d' then t.dropLast else t) :: lines rest := by
  obtain ⟨x, xs, hx⟩ := Replace.exists_pieces ['\n'] rest
  rw [lines, lines, Replace.pieces_singleton h, hx]
  rfl

theorem lines_unended (h : '\n' ∉ t) (hne : t ≠ []) : lines t = [t] := by
  rw [lines, Replace.pieces_singleton_of_notMem h, chompAll, if_neg hne]

end Lines

theorem mem_content_of_mem_text {l : Line} {b : UInt8} (hb : PlainByte b) (h : chr b ∈ l.text) :
    b ∈ l.content := by
  obtain ⟨a, ha, hlt, hchr⟩ := mem_of_mem_decode hb.plain h
  rwa [← chr_inj hlt hb.2 hchr]

theorem no_feed_text (l : Line) : '\n' ∉ l.text := by
  have hfeed : PlainByte 10 := by decide
  exact fun h => l.noFeed (mem_content_of_mem_text hfeed h)

theorem no_return_text {l : Line} (h : l.ending = .lf) : l.text.getLast? ≠ some '\x0d' := by
  intro hlast
  have hreturn : PlainByte 13 := by decide
  obtain ⟨b, hb, hlt, hchr⟩ := getLast_of_decode hreturn.plain hlast
  rw [chr_inj hlt hreturn.2 hchr] at hb
  exact l.noReturn h hb

/-- The first line of a text is read as it is, whichever its line end. -/
theorem lines_bytes (l : Line) (rest : List UInt8) :
    lines (fromUtf8Lossy (l.bytes ++ rest)) = l.text :: lines (fromUtf8Lossy rest) := by
  cases hend : l.ending with
  | lf =>
    have hbytes : fromUtf8Lossy (l.bytes ++ rest) = l.text ++ '\n' :: fromUtf8Lossy rest := by
      rw [Line.bytes, hend, LineEnd.bytes, List.append_assoc, List.singleton_append, fromUtf8Lossy,
        decode_append_ascii none (by decide)]
      rfl
    rw [hbytes, lines_line (no_feed_text l), if_neg (no_return_text hend)]
  | crlf =>
    have hbytes : fromUtf8Lossy (l.bytes ++ rest) =
        (l.text ++ ['\x0d']) ++ '\n' :: fromUtf8Lossy rest := by
      rw [Line.bytes, hend, LineEnd.bytes, List.append_assoc, List.cons_append, List.singleton_append,
        fromUtf8Lossy, decode_append_ascii none (by decide), decode_ascii none (by decide),
        List.append_assoc]
      rfl
    have hfeed : '\n' ∉ l.text ++ ['\x0d'] := by
      intro hmem
      rcases List.mem_append.mp hmem with hmem | hmem
      · exact no_feed_text l hmem
      · exact absurd (List.mem_singleton.mp hmem) (by decide)
    rw [hbytes, lines_line hfeed, if_pos List.getLast?_concat, List.dropLast_concat]

theorem lines_render {ended : Bool} {ls : List Line}
    (hlast : ended = false → ∀ l, ls.getLast? = some l → l.content ≠ []) :
    lines (fromUtf8Lossy (render ended ls)) = ls.map Line.text := by
  induction ls with
  | nil => rfl
  | cons l ls ih =>
    cases ls with
    | nil =>
      cases ended with
      | true =>
        have hline := lines_bytes l []
        rw [List.append_nil] at hline
        exact hline
      | false =>
        exact lines_unended (no_feed_text l) (fromUtf8Lossy_ne_nil (hlast rfl l rfl))
    | cons l' rest =>
      rw [render, lines_bytes, ih fun h => hlast h]
      rfl

/-! ## The blocks of a bundle -/

section Scan

variable {bs : List Text} {buf : Text} {l : Line}

theorem prefix_text {m : Text} (hm : (asBytes m).map chr = m)
    (hplain : (asBytes m).all fun b => decide (PlainByte b)) :
    m <+: l.text ↔ asBytes m <+: l.content := by
  have hbytes : ∀ b ∈ asBytes m, PlainByte b :=
    fun b hb => of_decide_eq_true (List.all_eq_true.mp hplain b hb)
  rw [← prefix_fromUtf8Lossy hbytes, hm]
  rfl

theorem begin_text : beginMarker <+: l.text ↔ asBytes beginMarker <+: l.content :=
  prefix_text (by decide) (by decide)

theorem end_text : endMarker <+: l.text ↔ asBytes endMarker <+: l.content :=
  prefix_text (by decide) (by decide)

/-- A line cannot both begin and end a block. -/
theorem not_begin_of_end {t : Text} (h : endMarker <+: t) : ¬ beginMarker <+: t := by
  intro hbegin
  rcases List.prefix_or_prefix_of_prefix h hbegin with hpre | hpre
  · exact absurd hpre (by decide)
  · exact absurd hpre (by decide)

theorem scan_other (h : ¬ l.Armor) : scanLine (bs, none) l.text = (bs, none) := by
  have hbegin : ¬ beginMarker <+: l.text := fun hpre => h (Or.inl (begin_text.mp hpre))
  rw [scanLine, if_neg hbegin]

theorem scan_plain (h : ¬ l.Armor) :
    scanLine (bs, some buf) l.text = (bs, some (buf ++ (l.text ++ ['\n']))) := by
  have hbegin : ¬ beginMarker <+: l.text := fun hpre => h (Or.inl (begin_text.mp hpre))
  have hend : ¬ endMarker <+: l.text := fun hpre => h (Or.inr (end_text.mp hpre))
  simp only [scanLine, if_neg hbegin, if_neg hend, List.append_assoc]

/-- The opening line starts a block, whatever was open. -/
theorem scan_opening (st : Option Text) (h : asBytes beginMarker <+: l.content) :
    scanLine (bs, st) l.text = (bs, some (l.text ++ ['\n'])) := by
  have hbegin := begin_text.mpr h
  have hend : ¬ endMarker <+: l.text := fun hpre => not_begin_of_end hpre hbegin
  simp only [scanLine, if_pos hbegin, if_neg hend, List.nil_append]

theorem scan_closing (h : asBytes endMarker <+: l.content) :
    scanLine (bs, some buf) l.text = (bs ++ [buf ++ (l.text ++ ['\n'])], none) := by
  have hend := end_text.mpr h
  simp only [scanLine, if_neg (not_begin_of_end hend), if_pos hend, List.append_assoc]

theorem scan_body {body : List Line} (h : ∀ l ∈ body, ¬ l.Armor) :
    (body.map Line.text).foldl scanLine (bs, some buf) = (bs, some (buf ++ joined body)) := by
  induction body generalizing buf with
  | nil => simp [joined]
  | cons l body ih =>
    have hbody : ∀ l ∈ body, ¬ l.Armor := fun l' hl' => h l' (List.mem_cons_of_mem _ hl')
    rw [List.map_cons, List.foldl_cons, scan_plain (h l List.mem_cons_self), ih hbody]
    simp [joined]

theorem scan_block (b : Block) :
    (b.lines.map Line.text).foldl scanLine (bs, none) = (bs ++ [b.text], none) := by
  rw [Block.lines, List.map_append, List.map_cons, List.foldl_append, List.foldl_cons,
    scan_opening none b.opens, scan_body b.plain]
  show scanLine _ b.closing.text = _
  rw [scan_closing b.closes]
  simp [Block.text, Block.lines, joined]

theorem scan_pieces (pieces : List Piece) :
    ((pieces.flatMap Piece.lines).map Line.text).foldl scanLine (bs, none) =
      (bs ++ (pieces.filterMap Piece.block?).map Block.text, none) := by
  induction pieces generalizing bs with
  | nil => simp
  | cons piece pieces ih =>
    rw [List.flatMap_cons, List.map_append, List.foldl_append]
    cases piece with
    | other line h =>
      show List.foldl scanLine (scanLine (bs, none) line.text) _ = _
      rw [scan_other h, ih]
      rfl
    | block b =>
      show List.foldl scanLine ((b.lines.map Line.text).foldl scanLine (bs, none)) _ = _
      rw [scan_block, ih, List.append_assoc]
      rfl

end Scan

/-- The blocks of a bundle are cut out of it, in order. -/
theorem pemCertBlocks_bytes (bundle : Bundle) :
    pemCertBlocks bundle.bytes = bundle.blocks.map Block.text := by
  have hlines : lines (fromUtf8Lossy bundle.bytes) = bundle.lines.map Line.text :=
    lines_render bundle.last
  rw [pemCertBlocks, hlines, Bundle.lines, scan_pieces, List.nil_append]
  rfl

/-! ## The certificate that is presented -/

section Choice

variable {x : X509} (r : CertReader x)

/-- A certificate that is not self-issued and whose subject is the leaf's issuer. -/
def Named (leaf : x.Cert) (block : Text) : Prop :=
  ∃ cert, r.read (asBytes block) = some cert ∧ r.subject cert = r.issuer leaf ∧
    r.subject cert ≠ r.issuer cert

/-- Such a certificate whose key verifies the leaf. -/
def Issued (leafPem : List UInt8) (block : Text) : Prop :=
  ∃ leaf cert, r.read leafPem = some leaf ∧ r.read (asBytes block) = some cert ∧
    r.subject cert = r.issuer leaf ∧ r.subject cert ≠ r.issuer cert ∧
    x.verifySignature leaf (x.publicKey cert) = .ok ()

/-- The bundle is cut into its blocks, a certificate that issued the leaf is presented if the bundle
has one, and no self-issued certificate is ever presented. -/
structure PresentsIssuer (leafPem : List UInt8) (bundle : Bundle) : Prop where
  blocks : pemCertBlocks bundle.bytes = bundle.blocks.map Block.text
  issued : (∃ block ∈ bundle.blocks, Issued r leafPem block.text) →
    ∃ block ∈ bundle.blocks, Issued r leafPem block.text ∧
      issuingIntermediatePem r leafPem bundle.bytes = some block.text
  noRoot : ∀ text, issuingIntermediatePem r leafPem bundle.bytes = some text →
    ∃ cert, r.read (asBytes text) = some cert ∧ r.subject cert ≠ r.issuer cert

/-- The bundle has certificates that issued the leaf, and before the first of them stands one with the
same name that did not. -/
def NamesakeFirst (leafPem : List UInt8) (blocks : List Block) : Prop :=
  ∃ leaf before namesake after, r.read leafPem = some leaf ∧
    blocks = before ++ namesake :: after ∧ Named r leaf namesake.text ∧
    ¬ Issued r leafPem namesake.text ∧ (∀ b ∈ before, ¬ Issued r leafPem b.text) ∧
    ∃ b ∈ after, Issued r leafPem b.text

variable {r} {leaf : x.Cert} {leafPem pem : List UInt8} {block : Text} {bundle : Bundle}

theorem isIssuer_iff : isIssuer r leaf block = true ↔ Named r leaf block := by
  unfold isIssuer Named
  cases r.read (asBytes block) with
  | none => simp
  | some cert => simp

theorem Issued.named (h : Issued r leafPem block) (hleaf : r.read leafPem = some leaf) :
    Named r leaf block := by
  obtain ⟨leaf', cert, hleaf', hcert, hsubject, hself, -⟩ := h
  obtain rfl : leaf = leaf' := Option.some.inj (hleaf.symm.trans hleaf')
  exact ⟨cert, hcert, hsubject, hself⟩

/-- Whatever the bytes are, what is presented is not self-issued. -/
theorem not_selfIssued (h : issuingIntermediatePem r leafPem pem = some block) :
    ∃ cert, r.read (asBytes block) = some cert ∧ r.subject cert ≠ r.issuer cert := by
  unfold issuingIntermediatePem at h
  split at h
  · cases h
  · obtain ⟨cert, hcert, -, hself⟩ := isIssuer_iff.mp (List.find?_some h)
    exact ⟨cert, hcert, hself⟩

/-- The first block with the issuer's name is presented. -/
theorem presented_of_split {before after : List Block} {b : Block}
    (hleaf : r.read leafPem = some leaf) (hblocks : bundle.blocks = before ++ b :: after)
    (hnamed : Named r leaf b.text) (hbefore : ∀ b' ∈ before, ¬ Named r leaf b'.text) :
    issuingIntermediatePem r leafPem bundle.bytes = some b.text := by
  unfold issuingIntermediatePem
  rw [hleaf]
  show (pemCertBlocks bundle.bytes).find? (isIssuer r leaf) = _
  rw [pemCertBlocks_bytes, hblocks, List.find?_eq_some_iff_append]
  refine ⟨isIssuer_iff.mpr hnamed, before.map Block.text, after.map Block.text, by simp, ?_⟩
  intro text htext
  obtain ⟨b', hb', rfl⟩ := List.mem_map.mp htext
  rw [Bool.not_eq_true', ← Bool.not_eq_true, isIssuer_iff]
  exact hbefore b' hb'

/-- The first block with the issuer's name, if there is one. -/
theorem exists_split {blocks : List Block} {b : Block} (hb : b ∈ blocks)
    (hnamed : Named r leaf b.text) : ∃ before first after, blocks = before ++ first :: after ∧
      Named r leaf first.text ∧ ∀ b' ∈ before, ¬ Named r leaf b'.text := by
  have hsome : (blocks.find? fun b => isIssuer r leaf b.text).isSome :=
    List.find?_isSome.mpr ⟨b, hb, isIssuer_iff.mpr hnamed⟩
  obtain ⟨first, hfirst⟩ := Option.isSome_iff_exists.mp hsome
  obtain ⟨hname, before, after, hsplit, hbefore⟩ := List.find?_eq_some_iff_append.mp hfirst
  refine ⟨before, first, after, hsplit, isIssuer_iff.mp hname, ?_⟩
  intro b' hb' hnamed'
  have hnot := hbefore b' hb'
  rw [isIssuer_iff.mpr hnamed'] at hnot
  exact absurd hnot (by decide)

/-- A namesake that stands first is presented, or one before it. -/
theorem NamesakeFirst.not_issued (h : NamesakeFirst r leafPem bundle.blocks) :
    ∃ block, issuingIntermediatePem r leafPem bundle.bytes = some block ∧ ¬ Issued r leafPem block := by
  obtain ⟨leaf, before, namesake, after, hleaf, hblocks, hnamed, hnot, hbefore, -⟩ := h
  have hmem : namesake ∈ before ++ [namesake] := by simp
  obtain ⟨pre, first, post, hsplit, hfirst, hpre⟩ := exists_split hmem hnamed
  have hall : bundle.blocks = pre ++ first :: (post ++ after) := by
    rw [hblocks, ← List.singleton_append, ← List.append_assoc, hsplit]
    simp
  refine ⟨first.text, presented_of_split hleaf hall hfirst hpre, ?_⟩
  have hin : first ∈ before ++ [namesake] := by simp [hsplit]
  rcases List.mem_append.mp hin with hin | hin
  · exact hbefore first hin
  · rwa [List.mem_singleton.mp hin]

theorem NamesakeFirst.not_presents (h : NamesakeFirst r leafPem bundle.blocks) :
    ¬ PresentsIssuer r leafPem bundle := by
  intro hpresents
  obtain ⟨text, htext, hbad⟩ := h.not_issued
  obtain ⟨_, _, _, after, _, hblocks, _, _, _, b, hb, hissued⟩ := h
  have hmem : b ∈ bundle.blocks := by simp [hblocks, hb]
  obtain ⟨block, -, hgood, hpresented⟩ := hpresents.issued ⟨b, hmem, hissued⟩
  rw [hpresented] at htext
  exact hbad (Option.some.inj htext ▸ hgood)

end Choice

/-- For every leaf and every bundle: the bundle is cut into its blocks, a certificate that issued the
leaf is presented if the bundle has one, and no self-issued one is ever presented, exactly if no
certificate with the issuer's name whose key does not verify the leaf stands before all those whose key
does. -/
theorem presentsIssuer_iff {x : X509} (r : CertReader x) (leafPem : List UInt8) (bundle : Bundle) :
    PresentsIssuer r leafPem bundle ↔ ¬ NamesakeFirst r leafPem bundle.blocks := by
  constructor
  · exact fun h hfirst => hfirst.not_presents h
  · intro h
    refine ⟨pemCertBlocks_bytes bundle, ?_, fun text => not_selfIssued⟩
    rintro ⟨b, hb, hissued⟩
    obtain ⟨leaf, -, hleaf, -⟩ := id hissued
    obtain ⟨before, first, after, hblocks, hnamed, hbefore⟩ := exists_split hb (hissued.named hleaf)
    have hnone : ∀ b' ∈ before, ¬ Issued r leafPem b'.text :=
      fun b' hb' hi => hbefore b' hb' (hi.named hleaf)
    have hpresented := presented_of_split hleaf hblocks hnamed hbefore
    by_cases hfirst : Issued r leafPem first.text
    · exact ⟨first, by simp [hblocks], hfirst, hpresented⟩
    · refine absurd ?_ h
      refine ⟨leaf, before, first, after, hleaf, hblocks, hnamed, hfirst, hnone, b, ?_, hissued⟩
      rw [hblocks] at hb
      rcases List.mem_append.mp hb with hb | hb
      · exact absurd hissued (hnone b hb)
      · rcases List.mem_cons.mp hb with rfl | hb
        · exact absurd hissued hfirst
        · exact hb

/-! ## A rolled-over key -/

def subjectName (n : UInt8) : List UInt8 := if n = 2 then [0] else [1]

def issuerName (n : UInt8) : List UInt8 := if n = 2 then [1] else [2]

/-- The numbered certificates in PEM: 2 is the leaf; 1 and 3 are the authority under its two keys, with
one name, both issued by a root. -/
def CertReader.numbered : CertReader X509.numbered where
  parsePem := fun pem => match lines (fromUtf8Lossy pem) with
    | _ :: ['A', 'Q', '=', '='] :: _ => .ok [1]
    | _ :: ['A', 'g', '=', '='] :: _ => .ok [2]
    | _ :: ['A', 'w', '=', '='] :: _ => .ok [3]
    | _ => .error "no PEM block"
  subject := subjectName
  issuer := issuerName

def beginLine : Line := ⟨asBytes beginMarker, .lf, by decide, by decide⟩

def endLine : Line := ⟨asBytes endMarker, .crlf, by decide, by decide⟩

/-- The authority's block with its new key. -/
def rolledBlock : Block where
  opening := beginLine
  body := [⟨asBytes "Aw==".toList, .lf, by decide, by decide⟩]
  closing := endLine
  opens := List.prefix_refl _
  plain := by decide
  closes := List.prefix_refl _

/-- The authority's block with the key that signed the leaf. -/
def signingBlock : Block where
  opening := beginLine
  body := [⟨asBytes "AQ==".toList, .crlf, by decide, by decide⟩]
  closing := endLine
  opens := List.prefix_refl _
  plain := by decide
  closes := List.prefix_refl _

def rolledOver : Bundle where
  pieces := [.block rolledBlock, .block signingBlock]
  ended := true
  last := fun h => absurd h (by decide)

def leafText : List UInt8 :=
  asBytes "-----BEGIN CERTIFICATE-----\nAg==\n-----END CERTIFICATE-----\n".toList

/-- The check of the enrollment finds the key that signed the leaf; the client presents the other
certificate. -/
theorem rolled_over_presents_namesake :
    verifyLeaf X509.numbered (2 : UInt8) none [[3], [1]] = .ok () ∧
      ¬ PresentsIssuer CertReader.numbered leafText rolledOver := by
  have hleaf : CertReader.numbered.read leafText = some (2 : UInt8) := rfl
  have hrolled : CertReader.numbered.read (asBytes rolledBlock.text) = some (3 : UInt8) := rfl
  have hsigning : CertReader.numbered.read (asBytes signingBlock.text) = some (1 : UInt8) := rfl
  have hself : ∀ n : UInt8, n ≠ 2 → subjectName n ≠ issuerName n := by
    intro n hn
    rw [subjectName, issuerName, if_neg hn, if_neg hn]
    decide
  have hissued : Issued CertReader.numbered leafText signingBlock.text :=
    ⟨_, _, hleaf, hsigning, rfl, hself 1 (by decide), rfl⟩
  have hnot : ¬ Issued CertReader.numbered leafText rolledBlock.text := by
    rintro ⟨leaf, cert, hleaf', hcert, -, -, hverify⟩
    obtain rfl : (2 : UInt8) = leaf := Option.some.inj (hleaf.symm.trans hleaf')
    obtain rfl : (3 : UInt8) = cert := Option.some.inj (hrolled.symm.trans hcert)
    cases hverify
  have hfirst : NamesakeFirst CertReader.numbered leafText rolledOver.blocks :=
    ⟨(2 : UInt8), [], rolledBlock, [signingBlock], hleaf, rfl,
      ⟨(3 : UInt8), hrolled, rfl, hself 3 (by decide)⟩, hnot, by simp, signingBlock, by simp, hissued⟩
  exact ⟨rfl, hfirst.not_presents⟩

end ClientChain

end Perchstation
