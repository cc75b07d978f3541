import WebArchive.Proofs.Archive.Refinement

/-!
The same ARC records, compressed and not. Where every member of a container holds one record or
nothing but blank lines, a compressed archive gives the records of the plain archive with the data
of the members, except for what only the plain one knows: where a record begins. Main fact:
`agrees_with_plain`.
-/
namespace WebArchive

open Gzip (MemberText)

/-! ### Blank lines in front -/

theorem Dialect.tile?_append_blank {blank : Bytes} (all : blank.all Line.isBlank)
    (dialect : Dialect) (options : ReaderOptions) (startOffset : Option Nat) (d : Bytes) :
    dialect.tile? options startOffset (blank ++ d) =
      (dialect.tile? options startOffset d).map fun t => { t with blank := blank ++ t.blank } := by
  simp only [tile?, Line.takeWhile_append_blank all, Line.dropWhile_append_blank all,
    Option.map_map]
  rfl

section Around
variable {α : Type} {f : Tile → α} (around : ∀ t blank, f { t with blank } = f t)
include around

/-- Blank lines in front move the records behind them, and change nothing else. -/
theorem map_tiles_append_blank {blank : Bytes} (all : blank.all Line.isBlank)
    (options : ReaderOptions) (dialect : Dialect) (start : Nat) (d : Bytes) :
    (tiles options dialect start (blank ++ d)).map f =
      (tiles options dialect (start + blank.length) d).map f := by
  have moved := Dialect.tile?_append_blank all dialect options
    (some (start + ((blank ++ d).takeWhile Line.isBlank).length)) d
  have place : start + ((blank ++ d).takeWhile Line.isBlank).length =
      start + blank.length + (d.takeWhile Line.isBlank).length := by
    rw [Line.takeWhile_append_blank all, List.length_append, Nat.add_assoc]
  cases found : dialect.tile? options
      (some (start + blank.length + (d.takeWhile Line.isBlank).length)) d with
  | none =>
    have none := Dialect.tile?_eq_none found
    rw [tiles_of_blank options dialect _ none,
      tiles_of_blank options dialect _ ((Line.dropWhile_append_blank all d).trans none)]
  | some t =>
    rw [place, found] at moved
    rw [tiles_of_some found, tiles_of_some (by rw [place]; exact moved), List.map_cons,
      List.map_cons, around]
    simp only [Tile.bytes, Tile.header, List.append_assoc, List.length_append,
      List.drop_length_add_append, Nat.add_assoc]

end Around

/-! ### Headers without a place -/

namespace Arc

/-- The header as it is read where the offset of its line means nothing. -/
def Header.unplaced (h : Header) : Header := { h with startOffset := none }

/-- The diagnostics of a record, with the problem that the header has with its offset and without
it. -/
def Header.DifferByOffset (h : Header) (placed unplaced : Diagnostics) : Prop :=
  ∃ front back, placed = front ++ h.offsetProblem ++ back ∧ unplaced = front ++ back

theorem Header.differByOffset (h : Header) :
    h.DifferByOffset h.diagnostics h.unplaced.diagnostics := by
  have none : h.unplaced.offsetProblem = [] := by
    rw [offsetProblem]
    split
    · rename_i actual found
      cases found
    · rfl
  refine ⟨h.countProblem ++ h.version.layout.flatMap h.problems,
    .invalidIf h.isCut recordField "Header line too long".toList, rfl, ?_⟩
  rw [diagnostics, none, List.append_nil]
  rfl

theorem Header.DifferByOffset.append {h : Header} {placed unplaced : Diagnostics}
    (differ : h.DifferByOffset placed unplaced) (more : Diagnostics) :
    h.DifferByOffset (placed ++ more) (unplaced ++ more) := by
  obtain ⟨front, back, rfl, rfl⟩ := differ
  exact ⟨front, back ++ more, List.append_assoc .., List.append_assoc ..⟩

/-- A version block as a plain archive and a compressed one show it. -/
structure VersionBlock.Agrees (header : Header) (plain packed : VersionBlock) : Prop where
  placed : plain.header = header
  unplaced : packed.header = header.unplaced
  version : plain.version = packed.version
  numbers : plain.numbers = packed.numbers
  origin : plain.origin = packed.origin
  fieldDescription : plain.fieldDescription = packed.fieldDescription
  blockDigest : plain.blockDigest = packed.blockDigest
  diagnostics : header.DifferByOffset plain.diagnostics packed.diagnostics

theorem VersionBlock.agrees (header : Header) (content : Bytes) (summary : Payload.Summary) :
    Agrees header (ofContent header content summary)
      (ofContent header.unplaced content summary) where
  placed := rfl
  unplaced := rfl
  version := rfl
  numbers := rfl
  origin := rfl
  fieldDescription := rfl
  blockDigest := rfl
  diagnostics := (((header.differByOffset.append _).append _).append _).append _

end Arc

/-- A record of an ARC archive as a plain archive and a compressed one show it. -/
structure ContentRecord.Sight.Agrees (header : Arc.Header) (plain packed : Sight) : Prop where
  placed : plain.heading = .arc header
  unplaced : packed.heading = .arc header.unplaced
  content : plain.content = packed.content
  summary : plain.summary = packed.summary
  diagnostics : header.DifferByOffset plain.diagnostics packed.diagnostics

theorem ContentRecord.Sight.agrees (options : ReaderOptions) (header : Arc.Header)
    (content : Bytes) :
    Agrees header (of options (.arc header) content) (of options (.arc header.unplaced) content)
    where
  placed := rfl
  unplaced := rfl
  content := rfl
  summary := rfl
  diagnostics := header.differByOffset.append _

/-! ### Records and blank lines -/

namespace Arc

/-- A record as it lies in an archive, between blank lines. Its header line declares the length
that the content has. -/
structure Entry (options : ReaderOptions) where
  front : Bytes
  /-- the header line without its line feed -/
  text : Bytes
  content : Bytes
  tail : Bytes
  front_blank : front.all Line.isBlank
  begun : ∃ b more, text = b :: more ∧ Line.isBlank b = false
  unbroken : Line.lineFeed ∉ text
  declared : (Header.ofLine (.ofBytes options.maxHeaderLine (text ++ [Line.lineFeed])) .v1
    none).length = some content.length
  tail_blank : tail.all Line.isBlank

namespace Entry
variable {options : ReaderOptions}

def line (e : Entry options) : Bytes := e.text ++ [Line.lineFeed]

def bytes (e : Entry options) : Bytes := e.front ++ (e.line ++ e.content ++ e.tail)

/-- The header as a file of the given version has it; the version block is read as version 1. -/
def header (e : Entry options) (version : Option Version) (startOffset : Option Nat) : Header :=
  .ofLine (.ofBytes options.maxHeaderLine e.line) (version.getD .v1) startOffset

/-- The length is in the same place in all versions. -/
theorem length_header (e : Entry options) (version : Option Version) (startOffset : Option Nat) :
    (e.header version startOffset).length = some e.content.length := e.declared

def tile (e : Entry options) (version : Option Version) (startOffset : Option Nat) : Tile where
  blank := e.front
  lines := [e.line]
  heading := .arc (e.header version startOffset)
  content := e.content
  sight := (Dialect.arc version).sight options (.arc (e.header version startOffset)) e.content

theorem tile?_eq (e : Entry options) (version : Option Version) (startOffset : Option Nat)
    (rest : Bytes) :
    (Dialect.arc version).tile? options startOffset (e.bytes ++ rest) =
      some (e.tile version startOffset) := by
  have start : (e.line ++ (e.content ++ (e.tail ++ rest))).dropWhile Line.isBlank =
        e.line ++ (e.content ++ (e.tail ++ rest)) ∧
      (e.line ++ (e.content ++ (e.tail ++ rest))).takeWhile Line.isBlank = [] := by
    obtain ⟨b, more, text, printed⟩ := e.begun
    simp [line, text, printed]
  have lines : (Dialect.arc version).headerLines options
      (e.line ++ (e.content ++ (e.tail ++ rest))) = [e.line] := by
    rw [Dialect.headerLines, if_neg (by simp [line]), line, Line.first_fed e.unbroken]
  have heading : (Dialect.arc version).heading options startOffset [e.line] =
      some (.arc (e.header version startOffset)) := rfl
  have length : (Heading.arc (e.header version startOffset)).length = some e.content.length :=
    e.length_header version startOffset
  simp only [bytes, List.append_assoc, Dialect.tile?, Line.takeWhile_append_blank e.front_blank,
    Line.dropWhile_append_blank e.front_blank, start, lines, heading, Option.map_some, length]
  simp [tile]

theorem ends_tile (e : Entry options) (version : Option Version) (startOffset : Nat) :
    (e.tile version (some startOffset)).ends =
      startOffset + e.line.length + e.content.length := by
  have header : (e.tile version (some startOffset)).header = e.line := List.flatten_singleton
  have length : (e.tile version (some startOffset)).heading.length = some e.content.length :=
    e.length_header version _
  rw [Tile.ends, Tile.headerEnd, header, length]
  rfl

theorem tail_bytes (e : Entry options) (version : Option Version) (startOffset : Option Nat) :
    e.bytes = (e.tile version startOffset).bytes ++ e.tail := by
  simp [bytes, Tile.bytes, Tile.header, tile]

/-- In a plain archive the record in front comes first, and then those behind its blank lines. -/
theorem map_tiles_append {α : Type} {f : Tile → α} (around : ∀ t blank, f { t with blank } = f t)
    (e : Entry options) (version : Option Version) (start : Nat) (rest : Bytes) :
    (tiles options (.arc version) start (e.bytes ++ rest)).map f =
      f (e.tile version (some (start + e.front.length))) ::
        (tiles options ((Dialect.arc version).behind
          (e.tile version (some (start + e.front.length))).sight)
          (start + e.bytes.length) rest).map f := by
  have found := e.tile?_eq version (some (start + e.front.length)) rest
  have blank : e.front = (e.bytes ++ rest).takeWhile Line.isBlank := (Dialect.tile?_eq_some found).1
  have whole := e.tail_bytes version (some (start + e.front.length))
  have behind : (e.bytes ++ rest).drop
      (e.tile version (some (start + e.front.length))).bytes.length = e.tail ++ rest := by
    rw [whole, List.append_assoc, List.drop_left]
  rw [tiles_of_some (by rw [← blank]; exact found), List.map_cons, behind,
    map_tiles_append_blank around e.tail_blank, Nat.add_assoc, ← List.length_append, ← whole]

/-- In a compressed archive it is the record of its member. -/
theorem sights_cons (e : Entry options) (version : Option Version) {t : MemberText}
    (same : t.data = e.bytes) (texts : List MemberText) :
    PackedArchive.sights (.arc version) options (t :: texts) =
      (e.tile version none).sight ::
        PackedArchive.sights ((Dialect.arc version).behind (e.tile version none).sight) options
          texts := by
  have found := e.tile?_eq version none []
  rw [List.append_nil, ← same] at found
  exact PackedArchive.sights_of_some texts (by rw [Dialect.firstSight, found]; rfl)

end Entry

/-- What the data of one member hold. -/
inductive Portion (options : ReaderOptions) where
  | blank (bytes : Bytes) (all : bytes.all Line.isBlank)
  | entry (e : Entry options)

def Portion.bytes {options : ReaderOptions} : Portion options → Bytes
  | .blank bytes _ => bytes
  | .entry e => e.bytes

/-- What is shown of portions, which begin at the offset `start`, by a plain archive and by a
compressed one. The first record is the version block, which settles the version of the others. -/
inductive Agreement {options : ReaderOptions} : Option Version → Nat → List (Portion options) →
    List Record.Sight → List Record.Sight → Prop where
  | nil {version : Option Version} {start : Nat} : Agreement version start [] [] []
  | blank {version : Option Version} {start : Nat} {bytes : Bytes} {all : bytes.all Line.isBlank}
    {portions : List (Portion options)} {plain packed : List Record.Sight}
    (others : Agreement version (start + bytes.length) portions plain packed) :
    Agreement version start (.blank bytes all :: portions) plain packed
  | versionBlock {start : Nat} {e : Entry options} {portions : List (Portion options)}
    {plain packed : List Record.Sight} (block block' : VersionBlock)
    (agrees : block.Agrees (e.header none (some (start + e.front.length))) block')
    (others : Agreement (some block.version) (start + e.bytes.length) portions plain packed) :
    Agreement none start (.entry e :: portions) (.versionBlock block :: plain)
      (.versionBlock block' :: packed)
  | content {version : Version} {start : Nat} {e : Entry options}
    {portions : List (Portion options)} {plain packed : List Record.Sight}
    (sight sight' : ContentRecord.Sight)
    (agrees : sight.Agrees (e.header (some version) (some (start + e.front.length))) sight')
    (delivered : sight.content = e.content)
    (others : Agreement (some version) (start + e.bytes.length) portions plain packed) :
    Agreement (some version) start (.entry e :: portions) (.content sight :: plain)
      (.content sight' :: packed)

/-- The records of the tiles agree with those of the members. -/
theorem agreement_sights {options : ReaderOptions} (version : Option Version) (start : Nat)
    {portions : List (Portion options)} {texts : List MemberText}
    (same : texts.map (·.data) = portions.map (·.bytes)) :
    Agreement version start portions
      ((tiles options (.arc version) start (portions.flatMap (·.bytes))).map (·.sight))
      (PackedArchive.sights (.arc version) options texts) := by
  induction portions generalizing version start texts with
  | nil =>
    rw [List.map_eq_nil_iff.mp same, List.flatMap_nil, tiles_nil]
    exact .nil
  | cons portion portions ih =>
    obtain ⟨t, texts, rfl, data, others⟩ := List.map_eq_cons_iff.mp same
    rw [List.flatMap_cons]
    cases portion with
    | blank bytes all =>
      rw [Portion.bytes, map_tiles_append_blank (fun _ _ => rfl) all,
        PackedArchive.sights_of_blank texts (Dialect.firstSight_eq_none.mpr (data ▸ all))]
      exact .blank (ih version _ others)
    | entry e =>
      rw [Portion.bytes, e.map_tiles_append fun _ _ => rfl, e.sights_cons version data texts]
      -- both go on in the version that the first record settles
      cases version with
      | none => exact .versionBlock _ _ (VersionBlock.agrees ..) (ih (some _) _ others)
      | some version =>
        refine .content _ _ (ContentRecord.Sight.agrees ..) ?_ (ih (some version) _ others)
        exact List.take_of_length_le (by rw [Heading.length, e.length_header]; exact Nat.le_refl _)

/-- The contents of portions are all there, so each of them ends among the bytes. -/
theorem ends_le_of_portions {options : ReaderOptions} (version : Option Version) (start : Nat)
    (portions : List (Portion options)) :
    ∀ n ∈ (tiles options (.arc version) start (portions.flatMap (·.bytes))).map (·.ends),
      n ≤ start + (portions.flatMap (·.bytes)).length := by
  induction portions generalizing version start with
  | nil => simp [tiles_nil]
  | cons portion portions ih =>
    rw [List.flatMap_cons, List.length_append, ← Nat.add_assoc]
    cases portion with
    | blank bytes all =>
      rw [Portion.bytes, map_tiles_append_blank (fun _ _ => rfl) all]
      exact ih version _
    | entry e =>
      rw [Portion.bytes, e.map_tiles_append fun _ _ => rfl, List.forall_mem_cons]
      refine ⟨?_, by cases version <;> exact ih (some _) _⟩
      rw [e.ends_tile, Entry.bytes]
      simp only [List.length_append]
      omega

end Arc

namespace PackedArchive

/-- Whatever the sources of both are cut into, and however the records of either are used, a plain
ARC archive and a compressed one with the same portions as members give records that agree. Only
where a plain one passes over what was not read must 64 bits be able to count its bytes. -/
theorem agrees_with_plain (options : ReaderOptions) (portions : List (Arc.Portion options))
    (texts : List MemberText) (same : texts.map (·.data) = portions.map (·.bytes)) :
    ∃ plain packed, Arc.Agreement none 0 portions plain packed ∧
      (∀ source : Source, source.bytes = portions.flatMap (·.bytes) → source.failures = [] →
        ∀ uses, (source.bytes.length < UInt64.size ∨ ∀ actions ∈ uses, .close ∈ actions) →
          Archive.Yields (fun a : PlainArchive => a.position = source.bytes.length) plain
            (PlainArchive.arc source options) uses) ∧
      ∀ source : Source, source.bytes = texts.flatMap (·.bytes) → source.failures = [] →
        ∀ uses, Archive.Yields
          (fun a : PackedArchive => a.container.position = source.bytes.length) packed
          (arc source options) uses := by
  refine ⟨_, _, Arc.agreement_sights none 0 same, ?_, ?_⟩
  · intro source data calm uses counted
    have within := Arc.ends_le_of_portions none 0 portions
    rw [← data] at within ⊢
    refine (PlainArchive.stands_start calm options (.arc none)).yields rfl (Nat.zero_add _) uses
      (counted.imp_left ?_)
    intro counted t inside
    have := within t.ends (List.mem_map_of_mem inside)
    omega
  · intro source members calm uses
    exact (stands_start members calm options).yields_sights uses

/-- The version block of a file in version 2, and a line feed. -/
def versionEntry : Arc.Entry {} where
  front := []
  text := [0x66, 0x20, 0x34]
  content := [0x32, 0x20, 0x30, 0x0A]
  tail := [0x0A]
  front_blank := rfl
  begun := ⟨_, _, rfl, rfl⟩
  unbroken := by decide
  declared := by decide +kernel
  tail_blank := rfl

/-- A record whose header declares the offset 7, which is inside the version block. -/
def misplacedEntry : Arc.Entry {} where
  front := []
  text := [0x75, 0x20, 0x61, 0x20, 0x64, 0x20, 0x74, 0x20, 0x72, 0x20, 0x63, 0x20, 0x6C, 0x20, 0x37,
    0x20, 0x6E, 0x20, 0x31]
  content := [0x58]
  tail := []
  front_blank := rfl
  begun := ⟨_, _, rfl, rfl⟩
  unbroken := by decide
  declared := by decide +kernel
  tail_blank := rfl

/-- A blank member comes between the two records, the second of which is not where it says. -/
theorem agrees_with_plain_misplaced :
    (misplacedEntry.header (some .v2) (some 11)).offsetProblem ≠ [] ∧
    ∃ plain packed,
      Arc.Agreement none 0
        [.entry versionEntry, .blank [0x0D, 0x0A] rfl, .entry misplacedEntry] plain packed ∧
      (∀ uses, Archive.Yields (fun a : PlainArchive => a.position = 32) plain
        (PlainArchive.arc ⟨[.chunk (versionEntry.bytes ++ [0x0D, 0x0A] ++
          misplacedEntry.bytes)]⟩) uses) ∧
      ∃ total, ∀ uses, Archive.Yields (fun a : PackedArchive => a.container.position = total) packed
        (arc ⟨[.chunk (memberOf versionEntry.bytes).bytes, .chunk (memberOf [0x0D, 0x0A]).bytes,
          .chunk (memberOf misplacedEntry.bytes).bytes]⟩) uses := by
  obtain ⟨plain, packed, agreement, first, second⟩ := agrees_with_plain {}
    [.entry versionEntry, .blank [0x0D, 0x0A] rfl, .entry misplacedEntry]
    [memberOf versionEntry.bytes, memberOf [0x0D, 0x0A], memberOf misplacedEntry.bytes] rfl
  have plainly (uses : List (List Action)) :=
    first ⟨[.chunk (versionEntry.bytes ++ [0x0D, 0x0A] ++ misplacedEntry.bytes)]⟩ rfl rfl uses
      (Or.inl (by decide))
  have compressed := second ⟨[.chunk (memberOf versionEntry.bytes).bytes,
    .chunk (memberOf [0x0D, 0x0A]).bytes, .chunk (memberOf misplacedEntry.bytes).bytes]⟩ rfl rfl
  exact ⟨by decide +kernel, plain, packed, agreement, plainly, _, compressed⟩

end PackedArchive
end WebArchive
