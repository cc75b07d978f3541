import WebArchive.Proofs.Payload.Accounting

/-!
Where the entity of a content begins, said of the content as a whole: behind the first empty line
after its opening. What a scan knows follows from the bytes it has seen, byte by byte, so the pieces
in which they were read or drained make no difference. Main fact: `Payload.locates_entity`.
-/
namespace WebArchive
namespace EntityScan

/-- A line feed, and a line that holds nothing but `returns` carriage returns. -/
def emptyLine (returns : Nat) : Bytes := 10 :: List.replicate returns 13 ++ [10]

/-- An empty line that begins behind the opening ends just before place `n`. -/
def EndsLine (content : Bytes) (n : Nat) : Prop :=
  ∃ front returns rest, content = front ++ emptyLine returns ++ rest ∧
    opening.length ≤ front.length ∧ n = (front ++ emptyLine returns).length

/-- The entity of the content begins at place `n`. -/
structure Begins (content : Bytes) (n : Nat) : Prop where
  opens : opening <+: content
  ends : EndsLine content n
  first : ∀ m, EndsLine content m → n ≤ m

/-- Behind the opening, nothing but carriage returns follows the last line feed. -/
def LineEmpty (content : Bytes) : Prop :=
  ∃ front returns, content = front ++ 10 :: List.replicate returns 13 ∧
    opening.length ≤ front.length

variable {c : Bytes} {b : UInt8} {n : Nat}

theorem LineEmpty.lt_length (h : LineEmpty c) : opening.length < c.length := by
  obtain ⟨front, returns, rfl, behind⟩ := h
  simp only [List.length_append, List.length_cons]
  omega

theorem EndsLine.lt (h : EndsLine c n) : opening.length < n := by
  obtain ⟨front, returns, rest, _, behind, rfl⟩ := h
  simp only [List.length_append, emptyLine, List.length_cons]
  omega

theorem EndsLine.le_length (h : EndsLine c n) : n ≤ c.length := by
  obtain ⟨front, returns, rest, rfl, _, rfl⟩ := h
  simp only [List.length_append]
  exact Nat.le_add_right ..

theorem lineEmpty_concat :
    LineEmpty (c ++ [b]) ↔ (b = 10 ∧ opening.length ≤ c.length) ∨ (b = 13 ∧ LineEmpty c) := by
  constructor
  · rintro ⟨front, returns, split, behind⟩
    cases returns with
    | zero =>
      obtain ⟨rfl, last⟩ := List.append_inj' split rfl
      exact Or.inl ⟨List.singleton_inj.mp last, behind⟩
    | succ returns =>
      rw [List.replicate_succ', ← List.cons_append, ← List.append_assoc] at split
      obtain ⟨rfl, last⟩ := List.append_inj' split rfl
      exact Or.inr ⟨List.singleton_inj.mp last, front, returns, rfl, behind⟩
  · rintro (⟨rfl, behind⟩ | ⟨rfl, front, returns, rfl, behind⟩)
    · exact ⟨c, 0, rfl, behind⟩
    · refine ⟨front, returns + 1, ?_, behind⟩
      rw [List.replicate_succ', ← List.cons_append, ← List.append_assoc]

theorem endsLine_concat :
    EndsLine (c ++ [b]) n ↔ EndsLine c n ∨ (b = 10 ∧ LineEmpty c ∧ n = c.length + 1) := by
  constructor
  · rintro ⟨front, returns, rest, split, behind, rfl⟩
    rcases List.eq_nil_or_concat rest with rfl | ⟨rest, last, rfl⟩
    · -- the empty line ends with the last byte
      rw [List.append_nil, emptyLine, ← List.append_assoc] at split
      obtain ⟨rfl, last⟩ := List.append_inj' split rfl
      refine Or.inr ⟨List.singleton_inj.mp last, ⟨front, returns, rfl, behind⟩, ?_⟩
      simp [emptyLine, Nat.add_assoc]
    · rw [List.concat_eq_append, ← List.append_assoc] at split
      obtain ⟨rfl, _⟩ := List.append_inj' split rfl
      exact Or.inl ⟨front, returns, rest, rfl, behind, rfl⟩
  · rintro (⟨front, returns, rest, rfl, behind, rfl⟩ | ⟨rfl, ⟨front, returns, rfl, behind⟩, rfl⟩)
    · exact ⟨front, returns, rest ++ [b], by rw [List.append_assoc], behind, rfl⟩
    · refine ⟨front, returns, [], ?_, behind, ?_⟩
      · simp [emptyLine]
      · simp [emptyLine, Nat.add_assoc]

theorem not_endsLine_concat (none : ∀ n, ¬ EndsLine c n) (full : b = 10 → ¬ LineEmpty c) (n : Nat) :
    ¬ EndsLine (c ++ [b]) n := by
  intro ends
  rcases endsLine_concat.mp ends with before | ⟨feed, empty, _⟩
  · exact none n before
  · exact full feed empty

theorem begins_concat (opens : opening <+: c) (none : ∀ n, ¬ EndsLine c n) (empty : LineEmpty c) :
    Begins (c ++ [10]) (c.length + 1) where
  opens := opens.trans (List.prefix_append c [10])
  ends := endsLine_concat.mpr (Or.inr ⟨rfl, empty, rfl⟩)
  first m ends := by
    rcases endsLine_concat.mp ends with before | ⟨_, _, rfl⟩
    · exact absurd before (none m)
    · exact Nat.le_refl _

theorem Begins.concat (h : Begins c n) (b : UInt8) : Begins (c ++ [b]) n where
  opens := h.opens.trans (List.prefix_append c [b])
  ends := endsLine_concat.mpr (Or.inl h.ends)
  first m ends := by
    rcases endsLine_concat.mp ends with before | ⟨_, _, rfl⟩
    · exact h.first m before
    · exact Nat.le_succ_of_le h.ends.le_length

theorem not_opens {rest : Bytes} (some : rest ≠ []) (split : c ++ rest = opening) :
    ¬ opening <+: c := by
  intro opens
  have longer := opens.length_le
  have whole := congrArg List.length split
  have left := List.length_pos_iff.mpr some
  rw [List.length_append] at whole
  omega

/-! ### What a scan knows -/

/-- The scans that have seen just the bytes `c`. -/
inductive Knows (algorithm : Digest.Algorithm) (c : Bytes) : EntityScan → Prop
  | opening (rest : Bytes) (some : rest ≠ []) (split : c ++ rest = EntityScan.opening) :
    Knows algorithm c ⟨.opening rest, c.length, none, .start algorithm⟩
  | other (never : ¬ EntityScan.opening <+: c) (already : ¬ c <+: EntityScan.opening) :
    Knows algorithm c ⟨.other, c.length, none, .start algorithm⟩
  | header (lineEmpty : Bool) (opens : EntityScan.opening <+: c)
      (line : lineEmpty = true ↔ LineEmpty c) (none : ∀ n, ¬ EndsLine c n) :
    Knows algorithm c ⟨.header lineEmpty, c.length, Option.none, .start algorithm⟩
  | entity (n : Nat) (begins : Begins c n) :
    Knows algorithm c ⟨.entity, c.length, some n, (Digest.Hasher.start algorithm).update (c.drop n)⟩

variable {algorithm : Digest.Algorithm} {s : EntityScan}

/-- In the opening: the byte ends it, is one of it, or spoils it. -/
theorem knows_byte_opening {rest : Bytes} (some : rest ≠ []) (split : c ++ rest = opening)
    (b : UInt8) :
    Knows algorithm (c ++ [b]) (byte ⟨.opening rest, c.length, none, .start algorithm⟩ b) := by
  obtain ⟨e, rest, rfl⟩ := List.exists_cons_of_ne_nil some
  by_cases same : b = e
  · subst same
    rw [List.append_cons] at split
    by_cases last : rest = []
    · subst last
      rw [List.append_nil] at split
      have line : ¬ LineEmpty (c ++ [b]) := by
        rw [split]
        intro line
        exact Nat.lt_irrefl _ line.lt_length
      have none : ∀ n, ¬ EndsLine (c ++ [b]) n := by
        rw [split]
        intro n ends
        exact Nat.not_le_of_lt ends.lt ends.le_length
      have knows : Knows algorithm (c ++ [b]) _ :=
        .header false (split ▸ List.prefix_rfl) (by simpa using line) none
      simpa [byte, Phase.next] using knows
    · have knows : Knows algorithm (c ++ [b]) _ := .opening rest last split
      simpa [byte, Phase.next, last] using knows
  · have already : ¬ c ++ [b] <+: opening := by
      rw [← split, List.prefix_append_right_inj]
      simpa using same
    have never : ¬ opening <+: c ++ [b] := by
      intro opens
      have longer := opens.length_le
      rw [← split] at opens longer
      simp only [List.length_append, List.length_cons, List.length_nil] at longer
      obtain rfl : rest = [] := List.length_eq_zero_iff.mp (by omega)
      rw [List.prefix_append_right_inj] at opens
      simp [eq_comm, same] at opens
    have knows : Knows algorithm (c ++ [b]) _ := .other never already
    simpa [byte, Phase.next, same] using knows

theorem knows_byte_header {lineEmpty : Bool} (opens : opening <+: c)
    (line : lineEmpty = true ↔ LineEmpty c) (none : ∀ n, ¬ EndsLine c n) (b : UInt8) :
    Knows algorithm (c ++ [b])
      (byte ⟨.header lineEmpty, c.length, Option.none, .start algorithm⟩ b) := by
  have still : opening <+: c ++ [b] := opens.trans (List.prefix_append c [b])
  by_cases feed : b = 10
  · subst feed
    cases lineEmpty with
    | true =>
      have knows : Knows algorithm (c ++ [10]) _ :=
        .entity (c.length + 1) (begins_concat opens none (line.mp rfl))
      simpa [byte, Phase.next, Digest.Hasher.update] using knows
    | false =>
      have full : ¬ LineEmpty c := fun empty => by simpa using line.mpr empty
      have none := not_endsLine_concat (b := 10) none fun _ => full
      have empty : LineEmpty (c ++ [10]) := lineEmpty_concat.mpr (Or.inl ⟨rfl, opens.length_le⟩)
      have knows : Knows algorithm (c ++ [10]) _ := .header true still (by simpa using empty) none
      simpa [byte, Phase.next] using knows
  · have none := not_endsLine_concat none fun same => absurd same feed
    by_cases back : b = 13
    · subst back
      have line : lineEmpty = true ↔ LineEmpty (c ++ [13]) := by
        rw [line, lineEmpty_concat]
        simp
      have knows : Knows algorithm (c ++ [13]) _ := .header lineEmpty still line none
      simpa [byte, Phase.next] using knows
    · have text : ¬ LineEmpty (c ++ [b]) := by
        rw [lineEmpty_concat]
        simp [feed, back]
      have knows : Knows algorithm (c ++ [b]) _ := .header false still (by simpa using text) none
      simpa [byte, Phase.next, feed, back] using knows

theorem Knows.byte (h : Knows algorithm c s) (b : UInt8) :
    Knows algorithm (c ++ [b]) (s.byte b) := by
  cases h with
  | opening rest some split => exact knows_byte_opening some split b
  | header lineEmpty opens line none => exact knows_byte_header opens line none b
  | other never already =>
    have never : ¬ EntityScan.opening <+: c ++ [b] := by
      intro opens
      rcases List.prefix_concat_iff.mp opens with same | before
      · exact already (same ▸ List.prefix_append c [b])
      · exact never before
    have already : ¬ c ++ [b] <+: EntityScan.opening := by
      intro front
      exact already ((List.prefix_append c [b]).trans front)
    have knows : Knows algorithm (c ++ [b]) _ := .other never already
    simpa [EntityScan.byte, Phase.next] using knows
  | entity n begins =>
    have knows : Knows algorithm (c ++ [b]) _ := .entity n (begins.concat b)
    rw [List.drop_append_of_le_length begins.ends.le_length, Digest.Hasher.update_append] at knows
    simpa [EntityScan.byte, Phase.next, Digest.Hasher.update] using knows

theorem knows_start (algorithm : Digest.Algorithm) : Knows algorithm [] (start algorithm) :=
  .opening opening (by decide) rfl

namespace Knows

/-- A scan that takes another piece knows what the bytes before and the piece say together. -/
theorem update (h : Knows algorithm c s) (piece : Bytes) :
    Knows algorithm (c ++ piece) (s.update piece) := by
  induction piece generalizing c s with
  | nil => rwa [List.append_nil]
  | cons b piece ih =>
    rw [List.append_cons]
    exact ih (h.byte b)

/-- Where the entity was found is where it begins. -/
theorem offset_eq_some (h : Knows algorithm c s) : s.offset = some n ↔ Begins c n := by
  cases h with
  | opening rest some split =>
    exact iff_of_false (by simp) fun begins => not_opens some split begins.opens
  | other never => exact iff_of_false (by simp) fun begins => never begins.opens
  | header lineEmpty opens line none =>
    exact iff_of_false (by simp) fun begins => none n begins.ends
  | entity m begins =>
    constructor
    · rintro ⟨⟩
      exact begins
    · intro also
      exact congrArg some (Nat.le_antisymm (begins.first n also.ends) (also.first m begins.ends))

/-- A content in which an empty line follows the opening has an entity. -/
theorem offset_eq_none (h : Knows algorithm c s) :
    s.offset = none ↔ ¬ (EntityScan.opening <+: c ∧ ∃ n, EndsLine c n) := by
  constructor
  · rintro missing ⟨opens, n, ends⟩
    cases h with
    | opening rest some split => exact not_opens some split opens
    | other never => exact never opens
    | header lineEmpty _ line none => exact none n ends
    | entity m begins => simp at missing
  · intro absent
    rw [Option.eq_none_iff_forall_ne_some]
    intro n found
    have begins := h.offset_eq_some.mp found
    exact absent ⟨begins.opens, n, begins.ends⟩

theorem finish_eq (h : Knows algorithm c s) :
    s.finish = s.offset.map fun n => (n, Digest.ofBytes algorithm (c.drop n)) := by
  cases h with
  | entity n _ => exact congrArg (fun v => some (n, v)) (Digest.Hasher.finish_update ..)
  | _ => rfl

end Knows
end EntityScan

namespace Payload

/-- The summary says where the entity of the content begins, if it has one, and how what follows
there is digested. -/
structure Summary.Locates (algorithm : Digest.Algorithm) (content : Bytes) (s : Summary) :
    Prop where
  offset : ∀ n, s.entityOffset = some n ↔ EntityScan.Begins content n
  absent : s.entityOffset = none ↔
    ¬ (EntityScan.opening <+: content ∧ ∃ n, EntityScan.EndsLine content n)
  digest : s.payloadDigest =
    s.entityOffset.map fun n => Digest.ofBytes algorithm (content.drop n)

theorem Summary.locates_of (length : Nat) (block : Option Digest.Algorithm)
    (algorithm : Digest.Algorithm) (content : Bytes) :
    (Summary.of length block (some algorithm) content).Locates algorithm content := by
  have knows := (EntityScan.knows_start algorithm).update content
  have offset : (Summary.of length block (some algorithm) content).entityOffset =
      ((EntityScan.start algorithm).update content).offset := by
    simp [Summary.of, knows.finish_eq, Function.comp_def]
  refine ⟨?_, ?_, ?_⟩
  · intro n
    rw [offset]
    exact knows.offset_eq_some
  · rw [offset]
    exact knows.offset_eq_none
  · rw [offset]
    simp [Summary.of, knows.finish_eq, Function.comp_def]

/-- The payload after these calls, whatever they answer. -/
def performs {σ : Type} [Readable σ] (p : Payload σ) (calls : List Call) : Payload σ :=
  calls.foldl (fun p call => (p.perform call).2) p

theorem Accounted.performs {source : Source} {length : Nat}
    {block entity : Option Digest.Algorithm} {p : Payload Source} {taken rest : Bytes}
    (h : Accounted (Source.Holds (· ∈ source.failures)) source.bytes length block entity p taken
      rest) (calls : List Call) :
    ∃ taken rest, Accounted (Source.Holds (· ∈ source.failures)) source.bytes length block entity
      (p.performs calls) taken rest := by
  induction calls generalizing p taken rest with
  | nil => exact ⟨taken, rest, h⟩
  | cons call calls ih =>
    obtain ⟨piece, left, _, after⟩ := h.served call
    exact ih after

/-- However a content is read and drained, in whatever pieces and past whatever failures: once it is
summed up, the entity is located in just the bytes that were taken from the source. A close sums up
as soon as nothing but interruptions is in its way. -/
theorem locates_entity (source : Source) (length : Nat) (block : Option Digest.Algorithm)
    (algorithm : Digest.Algorithm) (calls : List Call) :
    let p := (start source length block (some algorithm)).performs calls
    (∀ s, p.summary = some s → ∃ content, source.bytes = content ++ p.source.bytes ∧
      s.consumed = content.length ∧ s.Locates algorithm content) ∧
    ((∀ e ∈ p.source.failures, e.isInterrupted) →
      ∃ s, p.close.1 = .ok s ∧ p.close.2.summary = some s) := by
  intro p
  obtain ⟨taken, rest, accounted⟩ :
      ∃ taken rest, Accounted (Source.Holds (· ∈ source.failures)) source.bytes length block
        (some algorithm) p taken rest :=
    (accounted_start source.holds_bytes).performs calls
  have ledger := accounted.ledger
  refine ⟨fun s known => ?_, fun calm => ?_⟩
  · obtain ⟨rfl, _⟩ := ledger.summary s known
    exact ⟨taken, ledger.stream, rfl, Summary.locates_of length block algorithm taken⟩
  · have answer := ledger.recovers calm
    rcases call : p.close with ⟨e | s, p'⟩
    · simp [call] at answer
    · have known := (accounted.close_ok (Source.tracks _).toTracks call).2.1
      exact ⟨s, rfl, known⟩

/-- `HTTP/1`, an empty line that is cut in the middle and interrupted there, and `hi`. -/
def cutResponse : Source :=
  ⟨[.chunk [0x48, 0x54, 0x54, 0x50, 0x2F, 0x31, 10, 13], .failure (.device .interrupted "again"),
    .chunk [10, 0x68, 0x69]]⟩

def cutReads : List Call := [.read 6, .read 9, .read 9, .read 2, .read 9, .read 9]

/-- Two reads of one piece, a failed one, and more until the end is found. -/
theorem locates_entity_cut :
    ∃ s, ((start cutResponse 11 none (some .sha1)).performs cutReads).summary = some s ∧
      s.entityOffset = some 9 ∧ s.payloadDigest = some (Digest.ofBytes .sha1 [0x68, 0x69]) := by
  obtain ⟨located, _⟩ := locates_entity cutResponse 11 none .sha1 cutReads
  have closed : ((start cutResponse 11 none (some .sha1)).performs cutReads).summary.isSome := by
    decide
  have spent : ((start cutResponse 11 none (some .sha1)).performs cutReads).source.bytes = [] := by
    decide
  obtain ⟨s, known⟩ := Option.isSome_iff_exists.mp closed
  obtain ⟨content, whole, _, found⟩ := located s known
  rw [spent, List.append_nil] at whole
  subst whole
  have begins : EntityScan.Begins cutResponse.bytes 9 :=
    ((EntityScan.knows_start .sha1).update cutResponse.bytes).offset_eq_some.mp (by decide)
  have offset := (found.offset 9).mpr begins
  exact ⟨s, known, offset, by rw [found.digest, offset]; rfl⟩

end Payload
end WebArchive
