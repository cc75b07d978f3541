import WebArchive.Proofs.Gzip.HeaderText

/-!
Bytes are a stream of their own, and what a reader makes of them is what it makes of every stream
that holds them, however that stream is cut or interrupted. Main facts: `agrees_readHeader`, and
`readHeader_found`, which says that no header is found but those of a `HeaderText`.
-/
namespace WebArchive

/-- Bytes show all that is left of them at once, and never fail. -/
instance : Peekable Bytes where
  read d n := (.ok (d.take n), d.drop n)
  weight d := d.length
  fill d := (.ok d, d)
  consume d n := d.drop n
  length_read := by
    rintro d n _ _ ⟨⟩
    exact List.length_take_le ..
  weight_read := by
    rintro d n _ _ ⟨⟩
    rw [List.length_take, List.length_drop]
    omega
  weight_error := by simp
  weight_interrupted := by simp
  weight_fill := by
    rintro d _ _ ⟨⟩
    exact Nat.le_refl _
  weight_consume := by
    rintro d _ _ k ⟨⟩ bound
    rw [List.length_drop]
    omega
  weight_fill_error := by simp
  weight_fill_interrupted := by simp

namespace Bytes

theorem tracks : Peekable.Tracks (σ := Bytes) (· = ·) noError where
  taken := by
    rintro d _ n _ _ rfl ⟨⟩
    exact ⟨d.drop n, (List.take_append_drop n d).symm, rfl⟩
  ended := by
    intro d _ n _ same some call
    subst same
    have none : d.take n = [] := by
      have answer := congrArg Prod.fst call
      exact Except.ok.inj answer
    rcases List.take_eq_nil_iff.mp none with rfl | empty
    · exact absurd some (Nat.lt_irrefl 0)
    · exact empty
  failed := by
    rintro d _ n e _ rfl ⟨⟩
  shown := by
    rintro d _ _ _ rfl ⟨⟩
    exact ⟨List.prefix_rfl, id, rfl, fun k _ => rfl⟩
  unseen := by
    rintro d _ e _ rfl ⟨⟩

theorem readFull_eq (d : Bytes) (n : Nat) : Readable.readFull d n = (.ok (d.take n), d.drop n) := by
  obtain ⟨_, answer, rfl⟩ := tracks.readFull_eq quiet_noError (rfl : d = d) (n := n)
  exact answer

theorem readThrough_eq (stop : UInt8) (d : Bytes) :
    Peekable.readThrough stop d = (.ok (d.take ((d.takeWhile (· ≠ stop)).length + 1)),
      d.drop ((d.takeWhile (· ≠ stop)).length + 1)) := by
  obtain ⟨_, answer, rfl⟩ := tracks.readThrough_eq quiet_noError stop (rfl : d = d)
  exact answer

end Bytes

namespace Gzip

variable {σ α β ε δ : Type} {I : σ → Bytes → Prop} {E : StreamError → Prop}

/-! ### Streams that are read as their bytes are -/

/-- A stream that holds some bytes gives the answer that the bytes give, and holds what is left of
them then. -/
def Agrees (I : σ → Bytes → Prop) (read : σ → Outcome ε σ α) (plain : Bytes → Outcome ε Bytes α) :
    Prop :=
  ∀ ⦃s d⦄, I s d → ∃ s', read s = ((plain d).1, s') ∧ I s' (plain d).2

namespace Agrees
variable {read : σ → Outcome ε σ α} {plain : Bytes → Outcome ε Bytes α}

theorem answer (a : Except ε α) : Agrees I (fun s => (a, s)) fun d => (a, d) :=
  fun s _ h => ⟨s, rfl, h⟩

theorem andThen {next : α → σ → Outcome ε σ β} {after : α → Bytes → Outcome ε Bytes β}
    (first : Agrees I read plain) (second : ∀ a, Agrees I (next a) (after a)) :
    Agrees I (fun s => (read s).andThen next) fun d => (plain d).andThen after := by
  intro s d h
  obtain ⟨s₁, gave, held⟩ := first h
  rcases answer : plain d with ⟨e | a, rest⟩ <;> rw [answer] at gave held
  · refine ⟨s₁, ?_, ?_⟩ <;> simp only [gave, answer, Outcome.andThen]
    exact held
  · obtain ⟨s₂, gave', held'⟩ := second a held
    refine ⟨s₂, ?_, ?_⟩ <;> simp only [gave, answer, Outcome.andThen]
    · exact gave'
    · exact held'

theorem map (h : Agrees I read plain) (f : α → β) :
    Agrees I (fun s => (read s).map f) fun d => (plain d).map f := by
  intro s d held
  obtain ⟨s', gave, left⟩ := h held
  exact ⟨s', by simp only [gave, Outcome.map], left⟩

theorem mapError (h : Agrees I read plain) (f : ε → δ) :
    Agrees I (fun s => (read s).mapError f) fun d => (plain d).mapError f := by
  intro s d held
  obtain ⟨s', gave, left⟩ := h held
  exact ⟨s', by simp only [gave, Outcome.mapError], left⟩

theorem ite {read' : σ → Outcome ε σ α} {plain' : Bytes → Outcome ε Bytes α} (p : Prop)
    [Decidable p] (h : Agrees I read plain) (h' : Agrees I read' plain') :
    Agrees I (fun s => if p then read s else read' s) fun d => if p then plain d else plain' d := by
  by_cases holds : p
  · simpa only [if_pos holds] using h
  · simpa only [if_neg holds] using h'

end Agrees

section Parts
variable [Peekable σ]
open Readable

theorem agrees_readFull (t : Readable.Tracks I E) (quiet : Quiet E) (n : Nat) :
    Agrees I (readFull · n) (readFull · n) := by
  intro s d h
  obtain ⟨s', gave, left⟩ := t.readFull_eq quiet h (n := n)
  refine ⟨s', ?_, ?_⟩ <;> simp only [Bytes.readFull_eq]
  · exact gave
  · exact left

theorem agrees_readExact (t : Readable.Tracks I E) (quiet : Quiet E) (n : Nat) :
    Agrees I (readExact · n) (readExact · n) := by
  have split {τ : Type} [Peekable τ] (s : τ) : readExact s n =
      (readFull s n).andThen fun bs s =>
        if bs.length < n then (.error .shortRead, s) else (.ok bs, s) := by
    unfold readExact Outcome.andThen
    rcases readFull s n with ⟨e | bs, s'⟩ <;> rfl
  simp only [split]
  exact (agrees_readFull t quiet n).andThen fun bs => .ite _ (.answer _) (.answer _)

theorem agrees_readThrough (t : Peekable.Tracks I E) (quiet : Quiet E) (stop : UInt8) :
    Agrees I (Peekable.readThrough stop) (Peekable.readThrough stop) := by
  intro s d h
  obtain ⟨s', gave, left⟩ := t.readThrough_eq quiet stop h
  refine ⟨s', ?_, ?_⟩ <;> simp only [Bytes.readThrough_eq]
  · exact gave
  · exact left

omit [Peekable σ] in
theorem agrees_readIf {read : σ → Answer σ α} {plain : Bytes → Answer Bytes α}
    (h : Agrees I read plain) (present : Bool) :
    Agrees I (readIf present read) (readIf present plain) := by
  cases present
  · exact .answer _
  · exact h.map some

theorem agrees_readExtra (t : Readable.Tracks I E) (quiet : Quiet E) :
    Agrees I readExtra readExtra :=
  (agrees_readExact t quiet 2).andThen fun _ => agrees_readExact t quiet _

theorem agrees_readString (t : Peekable.Tracks I E) (quiet : Quiet E) :
    Agrees I readString readString :=
  (agrees_readThrough t quiet 0).andThen fun _ => .ite _ (.answer _) (.answer _)

theorem agrees_readTail (t : Peekable.Tracks I E) (quiet : Quiet E) (flags : Flags) :
    Agrees I (readTail flags) (readTail flags) :=
  (agrees_readIf (agrees_readExtra t.toTracks quiet) _).andThen fun _ =>
  (agrees_readIf (agrees_readString t quiet) _).andThen fun _ =>
  (agrees_readIf (agrees_readString t quiet) _).andThen fun _ =>
  (agrees_readIf (agrees_readExact t.toTracks quiet 2) _).map _

/-- Where a stream has been cut or interrupted makes no difference to the header that is read. -/
theorem agrees_readHeader (t : Peekable.Tracks I E) (quiet : Quiet E) (offset : Nat) :
    Agrees I (readHeader offset) (readHeader offset) :=
  ((agrees_readFull t.toTracks quiet 10).mapError _).andThen fun _ =>
  .ite _ (.answer _) <| .ite _ (.answer _) <| .ite _ (.answer _) <| .ite _ (.answer _) <|
  ((agrees_readTail t quiet _).mapError _).map _

end Parts

/-! ### No other headers are found -/

/-- Whatever is read from the front of some bytes is there as a text of its value. -/
def Finds (read : Bytes → Outcome ε Bytes α) (text : α → Bytes → Prop) : Prop :=
  ∀ ⦃d a rest⦄, read d = (.ok a, rest) → ∃ bytes, text a bytes ∧ d = bytes ++ rest

namespace Finds
variable {read : Bytes → Outcome ε Bytes α} {text : α → Bytes → Prop}

theorem andThen {next : α → Bytes → Outcome ε Bytes β} {more : α → β → Bytes → Prop}
    (first : Finds read text) (second : ∀ a, Finds (next a) (more a)) :
    Finds (fun d => (read d).andThen next) fun b bytes =>
      ∃ a front back, text a front ∧ more a b back ∧ bytes = front ++ back := by
  intro d b rest call
  obtain ⟨a, middle, found, answer⟩ := Outcome.andThen_eq_ok.mp call
  obtain ⟨front, said, rfl⟩ := first found
  obtain ⟨back, said', rfl⟩ := second a answer
  exact ⟨front ++ back, ⟨a, front, back, said, said', rfl⟩, (List.append_assoc ..).symm⟩

theorem weaken {text' : α → Bytes → Prop} (h : Finds read text)
    (imp : ∀ a bytes, text a bytes → text' a bytes) : Finds read text' := by
  intro d a rest call
  obtain ⟨bytes, said, split⟩ := h call
  exact ⟨bytes, imp a bytes said, split⟩

theorem map (h : Finds read text) (f : α → β) :
    Finds (fun d => (read d).map f) fun b bytes => ∃ a, text a bytes ∧ f a = b := by
  intro d b rest call
  obtain ⟨a, found, same⟩ := Outcome.map_eq_ok.mp call
  obtain ⟨bytes, said, split⟩ := h found
  exact ⟨bytes, ⟨a, said, same⟩, split⟩

end Finds

theorem finds_readExact (n : Nat) :
    Finds (Readable.readExact · n) fun a bytes => bytes = a ∧ a.length = n := by
  intro d a rest call
  simp only [Readable.readExact, Bytes.readFull_eq] at call
  split at call <;> simp only [Prod.mk.injEq, Except.ok.injEq, reduceCtorEq, false_and] at call
  rename_i enough
  obtain ⟨rfl, rfl⟩ := call
  refine ⟨_, ⟨rfl, ?_⟩, (List.take_append_drop n d).symm⟩
  rw [List.length_take] at enough ⊢
  omega

theorem finds_readIf {read : Bytes → Answer Bytes α} {text : α → Bytes} {fits : α → Prop}
    (h : Finds read fun a bytes => bytes = text a ∧ fits a) (present : Bool) :
    Finds (readIf present read) fun value bytes => bytes = value.elim [] text ∧
      present = value.isSome ∧ ∀ a, value = some a → fits a := by
  cases present with
  | false =>
    rintro d _ _ ⟨⟩
    exact ⟨[], ⟨rfl, rfl, by simp⟩, rfl⟩
  | true =>
    refine (h.map some).weaken ?_
    rintro _ bytes ⟨a, ⟨rfl, fits⟩, rfl⟩
    exact ⟨rfl, rfl, by rintro _ ⟨⟩; exact fits⟩

theorem finds_readExtra :
    Finds readExtra fun a bytes => bytes = extraSection a ∧ a.length ≤ 65535 := by
  refine ((finds_readExact 2).andThen fun _ => finds_readExact _).weaken ?_
  rintro a bytes ⟨_, length, extra, ⟨rfl, two⟩, ⟨rfl, size⟩, rfl⟩
  have small := Bytes.ofLittleEndian_lt length
  have written := Bytes.littleEndian_ofLittleEndian length
  rw [two] at small written
  exact ⟨by rw [extraSection, size, written], by omega⟩

theorem length_takeWhile_lt {stop : UInt8} {d : Bytes} (found : stop ∈ d) :
    (d.takeWhile (· ≠ stop)).length < d.length := by
  refine Nat.lt_of_not_le fun all => not_mem_takeWhile stop d ?_
  rwa [(List.takeWhile_prefix _).eq_of_length_le all]

theorem finds_readString :
    Finds readString fun a bytes => bytes = stringSection a ∧ 0 ∉ a := by
  intro d a rest call
  obtain ⟨bs, middle, through, call⟩ := Outcome.andThen_eq_ok.mp call
  split at call <;> simp only [Prod.mk.injEq, Except.ok.injEq, reduceCtorEq, false_and] at call
  rename_i zero
  obtain ⟨rfl, rfl⟩ := call
  rw [Bytes.readThrough_eq] at through
  simp only [Prod.mk.injEq, Except.ok.injEq] at through
  obtain ⟨rfl, rfl⟩ := through
  have found : 0 ∈ d := List.mem_of_mem_take (List.mem_of_getLast? zero)
  have through := take_through [] (length_takeWhile_lt found)
  rw [List.append_nil] at through
  refine ⟨stringSection (d.takeWhile (· ≠ 0)), ⟨?_, ?_⟩, ?_⟩
  · rw [through, List.dropLast_concat]
  · rw [through, List.dropLast_concat]
    exact not_mem_takeWhile 0 d
  · rw [stringSection, ← through, List.take_append_drop]

def Tail.sections (t : Tail) : Bytes :=
  t.extra.elim [] extraSection ++ t.name.elim [] stringSection ++ t.comment.elim [] stringSection

/-- A tail that the flags announce, with values that can be written. -/
structure Tail.Fits (flags : Flags) (t : Tail) : Prop where
  extra : flags.has .extra = t.extra.isSome ∧ ∀ bs, t.extra = some bs → bs.length ≤ 65535
  name : flags.has .name = t.name.isSome ∧ ∀ bs, t.name = some bs → 0 ∉ bs
  comment : flags.has .comment = t.comment.isSome ∧ ∀ bs, t.comment = some bs → 0 ∉ bs
  checksum : flags.has .headerChecksum = t.checksum.isSome ∧
    ∀ n, t.checksum = some n → n < 65536

theorem finds_readTail (flags : Flags) :
    Finds (readTail flags) fun t bytes => t.Fits flags ∧
      bytes = t.sections ++ t.checksum.elim [] (Bytes.littleEndian 2) := by
  have checksum : Finds (readIf (flags.has .headerChecksum) (Readable.readExact · 2))
      fun (value : Option Bytes) bytes => bytes = value.elim [] id ∧
        flags.has .headerChecksum = value.isSome ∧ ∀ a, value = some a → a.length = 2 :=
    finds_readIf (finds_readExact 2) _
  refine ((finds_readIf finds_readExtra _).andThen fun extra =>
    (finds_readIf finds_readString _).andThen fun name =>
    (finds_readIf finds_readString _).andThen fun comment =>
    checksum.map fun checksum =>
      (⟨extra, name, comment, checksum.map Bytes.ofLittleEndian⟩ : Tail)).weaken ?_
  rintro _ _ ⟨extra, _, _, ⟨rfl, hasExtra⟩, ⟨name, _, _, ⟨rfl, hasName⟩, ⟨comment, _, _,
    ⟨rfl, hasComment⟩, ⟨value, ⟨rfl, hasChecksum, two⟩, rfl⟩, rfl⟩, rfl⟩, rfl⟩
  refine ⟨⟨hasExtra, hasName, hasComment, by rw [hasChecksum, Option.isSome_map], ?_⟩, ?_⟩
  · intro n some
    obtain ⟨bs, same, rfl⟩ := Option.map_eq_some_iff.mp some
    have small := Bytes.ofLittleEndian_lt bs
    rwa [two bs same] at small
  · have written : (value.map Bytes.ofLittleEndian).elim [] (Bytes.littleEndian 2) =
        value.elim [] id := by
      cases value with
      | none => rfl
      | some bs =>
        have read := Bytes.littleEndian_ofLittleEndian bs
        rwa [two bs rfl] at read
    simp only [Tail.sections, written, List.append_assoc]

/-- The text of a header with these parts. -/
def HeaderText.ofParts (fixed : Bytes) (tail : Tail) (fits : tail.Fits ⟨fixed.getD 3 0⟩)
    (method : fixed.getD 2 0 = deflateMethod) : HeaderText where
  header := (Found.ofParts fixed ⟨fixed.getD 3 0⟩ tail).header
  flags := ⟨fixed.getD 3 0⟩
  stated := tail.checksum.map UInt16.ofNat
  fits := ⟨method, fits.extra.2, fits.name.2, fits.comment.2⟩
  announced
    | .text => rfl
    | .headerChecksum => rfl
    | .extra => fits.extra.1
    | .name => fits.name.1
    | .comment => fits.comment.1
  checked := by rw [Option.isSome_map, ← fits.checksum.1]; rfl

theorem fixed_ofParts {fixed : Bytes} (size : fixed.length = 10) (begun : fixed.take 2 = magic)
    (tail : Tail) :
    (Found.ofParts fixed ⟨fixed.getD 3 0⟩ tail).header.fixed ⟨fixed.getD 3 0⟩ = fixed := by
  match fixed, size with
  | [m₀, m₁, method, flags, t₀, t₁, t₂, t₃, extraFlags, system], _ =>
    have time : Bytes.littleEndian 4
        (UInt32.ofNat (Bytes.ofLittleEndian [t₀, t₁, t₂, t₃])).toNat = [t₀, t₁, t₂, t₃] := by
      have small : Bytes.ofLittleEndian [t₀, t₁, t₂, t₃] < 2 ^ 32 := by
        simpa using Bytes.ofLittleEndian_lt [t₀, t₁, t₂, t₃]
      rw [UInt32.toNat_ofNat', Nat.mod_eq_of_lt small]
      exact Bytes.littleEndian_ofLittleEndian [t₀, t₁, t₂, t₃]
    show magic ++ [method, flags] ++ Bytes.littleEndian 4
      (UInt32.ofNat (Bytes.ofLittleEndian [t₀, t₁, t₂, t₃])).toNat ++ [extraFlags, system] = _
    rw [time, ← begun]
    rfl

theorem HeaderText.bytes_ofParts {fixed : Bytes} {tail : Tail}
    (fits : tail.Fits ⟨fixed.getD 3 0⟩) (method : fixed.getD 2 0 = deflateMethod)
    (size : fixed.length = 10) (begun : fixed.take 2 = magic) :
    (HeaderText.ofParts fixed tail fits method).bytes =
      fixed ++ (tail.sections ++ tail.checksum.elim [] (Bytes.littleEndian 2)) := by
  have checksum : (tail.checksum.map UInt16.ofNat).elim []
      (fun c => Bytes.littleEndian 2 c.toNat) = tail.checksum.elim [] (Bytes.littleEndian 2) := by
    cases known : tail.checksum with
    | none => rfl
    | some n =>
      have small := fits.checksum.2 n known
      simp [Nat.mod_eq_of_lt small]
  rw [← List.append_assoc, ← checksum]
  show (Found.ofParts fixed ⟨fixed.getD 3 0⟩ tail).header.fixed ⟨fixed.getD 3 0⟩ ++ tail.sections ++
    _ = _
  rw [fixed_ofParts size begun]
  rfl

/-- A header that is found in front of some bytes is there as a text. -/
theorem readHeader_found {offset : Nat} {d rest : Bytes} {found : Found}
    (h : readHeader offset d = (.ok (some found), rest)) :
    ∃ t : HeaderText, d = t.bytes ++ rest := by
  obtain ⟨fixed, middle, first, h⟩ := Outcome.andThen_eq_ok.mp h
  have first := Outcome.mapError_eq_ok.mp first
  rw [Bytes.readFull_eq] at first
  simp only [Prod.mk.injEq, Except.ok.injEq] at first
  obtain ⟨rfl, rfl⟩ := first
  split at h
  · simp at h
  split at h
  · simp at h
  rename_i long
  split at h
  · simp at h
  rename_i begun
  split at h
  · simp at h
  rename_i method
  rw [ne_eq, Classical.not_not] at begun method
  obtain ⟨tail, read, _⟩ := Outcome.map_eq_ok.mp h
  obtain ⟨bytes, ⟨fits, rfl⟩, split⟩ := finds_readTail _ (Outcome.mapError_eq_ok.mp read)
  have size : (d.take 10).length = 10 :=
    Nat.le_antisymm (List.length_take_le ..) (Nat.le_of_not_lt long)
  refine ⟨.ofParts (d.take 10) tail fits method, ?_⟩
  rw [HeaderText.bytes_ofParts fits method size begun, List.append_assoc, ← split,
    List.take_append_drop]

theorem readHeader_text_append (offset : Nat) (t : HeaderText) (rest : Bytes) :
    readHeader offset (t.bytes ++ rest) = (.ok (some t.found), rest) := by
  obtain ⟨_, answer, rfl⟩ := t.gets_readHeader Bytes.tracks quiet_noError offset rfl
  exact answer

/-- What is found in front of some bytes is what a text says that stands there. -/
theorem readHeader_text {offset : Nat} {d rest : Bytes} {found : Found}
    (h : readHeader offset d = (.ok (some found), rest)) :
    ∃ t : HeaderText, d = t.bytes ++ rest ∧ found = t.found := by
  obtain ⟨t, rfl⟩ := readHeader_found h
  obtain ⟨same, _⟩ := Outcome.ok_inj h (readHeader_text_append offset t rest)
  exact ⟨t, rfl, Option.some.inj same⟩

/-- What stands in front of some bytes decides what is read of them. -/
theorem readHeader_eq (offset : Nat) (d : Bytes) :
    readHeader offset d =
      if d = [] then (.ok none, [])
      else if d.length < 10 then (.error (.trailingBytes offset d.length), [])
      else if d.take 2 ≠ magic then
        (.error (.badMagic offset (d.getD 0 0) (d.getD 1 0)), d.drop 10)
      else if d.getD 2 0 ≠ deflateMethod then
        (.error (.unsupportedMethod offset (d.getD 2 0)), d.drop 10)
      else ((readTail ⟨d.getD 3 0⟩ (d.drop 10)).mapError Error.stream).map fun tail =>
        some (Found.ofParts (d.take 10) ⟨d.getD 3 0⟩ tail) := by
  have fixed : ∀ i, i < 10 → (d.take 10).getD i 0 = d.getD i 0 := by
    intro i few
    simp [List.getD_eq_getElem?_getD, few]
  have begun : (d.take 10).take 2 = d.take 2 := by rw [List.take_take]; rfl
  have first : (Readable.readFull d 10).mapError Error.stream = (.ok (d.take 10), d.drop 10) := by
    rw [Bytes.readFull_eq]
    rfl
  unfold readHeader
  simp only [first, Outcome.andThen, begun, fixed 0 (by decide), fixed 1 (by decide),
    fixed 2 (by decide), fixed 3 (by decide)]
  by_cases none : d = []
  · subst none
    rfl
  · rw [if_neg none, if_neg (by simpa using none)]
    by_cases few : d.length < 10
    · rw [if_pos few, List.take_of_length_le (Nat.le_of_lt few), if_pos few,
        List.drop_eq_nil_of_le (Nat.le_of_lt few)]
    · have size : (d.take 10).length = 10 := by
        rw [List.length_take]
        omega
      rw [if_neg few, if_neg (by omega)]

theorem readHeader_none {offset : Nat} {d rest : Bytes}
    (h : readHeader offset d = (.ok none, rest)) : d = [] := by
  rw [readHeader_eq] at h
  split at h
  · assumption
  · iterate 3
      split at h
      · simp at h
    obtain ⟨_, _, absent⟩ := Outcome.map_eq_ok.mp h
    cases absent

end Gzip
end WebArchive
