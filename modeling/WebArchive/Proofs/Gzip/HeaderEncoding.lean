import WebArchive.Proofs.Gzip.HeaderReading
import WebArchive.Proofs.Stream.Delivery

/-!
Writing a header and reading one are inverse to each other. What is read without a fault is the one
encoding of its header, and nothing behind it is taken; what is encoded is read back, unless its
method is not the one that is read. Main facts: `readHeader_exact`, `Header.encode_exact`.
-/
namespace WebArchive.Gzip

/-! ### Headers as they stand in bytes -/

/-- A header with its five announced parts and its reserved bits has no other flag byte. -/
theorem Flags.eq_of_has {f g : Flags} (announced : ∀ flag, f.has flag = g.has flag)
    (reserved : f.reserved = g.reserved) : f = g := by
  have high : f.bits.toNat >>> 5 = g.bits.toNat >>> 5 := by
    simpa [Flags.reserved] using congrArg UInt8.toNat reserved
  have same : f.bits.toNat = g.bits.toNat := by
    apply Nat.eq_of_testBit_eq
    intro i
    match i with
    | 0 => exact announced .text
    | 1 => exact announced .headerChecksum
    | 2 => exact announced .extra
    | 3 => exact announced .name
    | 4 => exact announced .comment
    | i + 5 =>
      have bit := congrArg (·.testBit i) high
      simpa [Nat.testBit_shiftRight, Nat.add_comm] using bit
  exact congrArg Flags.mk (UInt8.toNat.inj same)

namespace HeaderText

theorem flags_eq (t : HeaderText) (plain : t.flags.reserved = 0) : t.flags = t.header.flags := by
  apply Flags.eq_of_has
  · intro flag
    rw [t.announced, Header.has_flags]
  · rw [plain, Header.reserved_flags]

/-- A header without faults stands there as it is encoded. -/
theorem bytes_eq (t : HeaderText) (plain : t.flags.reserved = 0)
    (agrees : t.found.checksum.all (·.agrees)) : t.bytes = t.header.bytes := by
  have body : t.body = t.header.fixed t.header.flags ++ t.header.sections := by
    rw [HeaderText.body, t.flags_eq plain]
  have stated : t.stated = t.header.checksum? := by
    have marked := t.checked
    unfold Header.checksum?
    rw [← body]
    cases known : t.stated with
    | none =>
      rw [known] at marked
      simp [← marked]
    | some c =>
      rw [known] at marked
      have same : c = Crc32.low16 t.body := by
        simpa [found, known, Comparison.agrees] using agrees
      simp [← marked, same, Crc32.value16_update]
  rw [HeaderText.bytes, Header.bytes, body, stated]

end HeaderText

theorem Header.Fits.of_encode {h : Header} {bytes : Bytes} (encoded : h.encode = .ok bytes)
    (method : h.method = deflateMethod) : h.Fits := by
  unfold Header.encode at encoded
  split at encoded
  · simp at encoded
  · rename_i fits
    unfold Header.misfit? at fits
    split at fits
    · simp at fits
    split at fits
    · simp at fits
    split at fits
    · simp at fits
    rename_i extra name comment
    refine ⟨method, ?_, ?_, ?_⟩
    · intro bs some
      simp only [some, Option.any_some, decide_eq_true_eq] at extra
      omega
    · intro bs some
      simpa [some] using name
    · intro bs some
      simpa [some] using comment

theorem Header.eq_bytes_of_encode {h : Header} {bytes : Bytes} (encoded : h.encode = .ok bytes) :
    bytes = h.bytes := by
  unfold Header.encode at encoded
  split at encoded
  · simp at encoded
  · exact (Except.ok.inj encoded).symm

/-! ### Sections that are cut -/

/-- The flags that announce a section, in the order in which the sections stand. -/
def Flag.ofSections : List Flag := [.extra, .name, .comment, .headerChecksum]

/-- How many bytes the announced section takes in front of `d`, if it is there to its end. -/
def Flag.extent? (d : Bytes) : Flag → Option Nat
  | .text => some 0
  | .extra =>
    let size := 2 + Bytes.ofLittleEndian (d.take 2)
    if 2 ≤ d.length ∧ size ≤ d.length then some size else none
  | .name | .comment => if 0 ∈ d then some ((d.takeWhile (· ≠ 0)).length + 1) else none
  | .headerChecksum => if 2 ≤ d.length then some 2 else none

/-- A section that the flags announce is cut by the end of the bytes. -/
def SectionCut (flags : Flags) : List Flag → Bytes → Prop
  | [], _ => False
  | flag :: more, d =>
    if flags.has flag then
      match flag.extent? d with
      | none => True
      | some n => SectionCut flags more (d.drop n)
    else SectionCut flags more d

variable {α β : Type} {flags : Flags}

/-- The reader takes just the section of the flag, and fails for want of bytes if it is cut. -/
def Measures (flag : Flag) (read : Bytes → Answer Bytes α) : Prop :=
  ∀ d, (∃ n a, flag.extent? d = some n ∧ read d = (.ok a, d.drop n)) ∨
    ∃ e, flag.extent? d = none ∧ (read d).1 = .error e ∧ e.kind = .unexpectedEof

/-- The reader fails on bytes that are cut, for want of bytes, and on no others. -/
def FailsIf (cut : Bytes → Prop) (read : Bytes → Answer Bytes α) : Prop :=
  ∀ d, (∃ a, (read d).1 = .ok a ∧ ¬ cut d) ∨
    ∃ e, (read d).1 = .error e ∧ e.kind = .unexpectedEof ∧ cut d

theorem readExact_bytes (d : Bytes) (n : Nat) :
    Readable.readExact d n =
      if n ≤ d.length then (.ok (d.take n), d.drop n) else (.error .shortRead, d.drop n) := by
  rw [Readable.readExact, Bytes.readFull_eq]
  dsimp only
  by_cases enough : n ≤ d.length
  · rw [if_pos enough, if_neg (by rw [List.length_take]; omega)]
  · rw [if_neg enough, if_pos (by rw [List.length_take]; omega)]

theorem measures_readChecksum : Measures .headerChecksum (Readable.readExact · 2) := by
  intro d
  simp only [readExact_bytes, Flag.extent?]
  by_cases enough : 2 ≤ d.length
  · simp only [if_pos enough]
    exact Or.inl ⟨2, _, rfl, rfl⟩
  · rw [if_neg enough, if_neg enough]
    exact Or.inr ⟨.shortRead, rfl, rfl, rfl⟩

theorem measures_readExtra : Measures .extra readExtra := by
  intro d
  simp only [readExtra, readExact_bytes, Flag.extent?]
  by_cases two : 2 ≤ d.length
  · simp only [if_pos two, Outcome.andThen, List.length_drop]
    by_cases enough : 2 + Bytes.ofLittleEndian (d.take 2) ≤ d.length
    · rw [if_pos ⟨two, enough⟩, if_pos (by omega), List.drop_drop]
      exact Or.inl ⟨_, _, rfl, rfl⟩
    · rw [if_neg (fun both => enough both.2), if_neg (by omega)]
      exact Or.inr ⟨.shortRead, rfl, rfl, rfl⟩
  · rw [if_neg two, if_neg (fun both => two both.1)]
    exact Or.inr ⟨.shortRead, rfl, rfl, rfl⟩

theorem measures_readString {flag : Flag}
    (ends : ∀ d, flag.extent? d =
      if 0 ∈ d then some ((d.takeWhile (· ≠ 0)).length + 1) else none) :
    Measures flag readString := by
  intro d
  simp only [readString, Bytes.readThrough_eq, Outcome.andThen, ends]
  by_cases found : 0 ∈ d
  · have last : (d.take ((d.takeWhile (· ≠ 0)).length + 1)).getLast? = some 0 := by
      have through := take_through [] (length_takeWhile_lt found)
      rw [List.append_nil] at through
      rw [through, List.getLast?_concat]
    rw [if_pos found, if_pos last]
    exact Or.inl ⟨_, _, rfl, rfl⟩
  · have last : (d.take ((d.takeWhile (· ≠ 0)).length + 1)).getLast? ≠ some 0 := by
      intro zero
      exact found (List.mem_of_mem_take (List.mem_of_getLast? zero))
    rw [if_neg found, if_neg last]
    exact Or.inr ⟨.unterminatedString, rfl, rfl, rfl⟩

theorem failsIf_section {flag : Flag} {more : List Flag} {read : Bytes → Answer Bytes α}
    {next : Option α → Bytes → Answer Bytes β} (first : Measures flag read)
    (second : ∀ a, FailsIf (SectionCut flags more) (next a)) :
    FailsIf (SectionCut flags (flag :: more)) fun d =>
      (readIf (flags.has flag) read d).andThen next := by
  intro d
  by_cases announced : flags.has flag
  · simp only [readIf, SectionCut, if_pos announced]
    rcases first d with ⟨n, a, extent, answer⟩ | ⟨e, extent, answer, short⟩
    · simp only [extent, answer]
      exact second (some a) (d.drop n)
    · have call : read d = (.error e, (read d).2) := Prod.ext answer rfl
      rw [call, extent]
      exact Or.inr ⟨e, rfl, short, trivial⟩
  · simp only [readIf, SectionCut, if_neg announced]
    exact second none d

/-- The sections are read in their order, each behind the one before it. -/
theorem failsIf_readTail (flags : Flags) :
    FailsIf (SectionCut flags Flag.ofSections) (readTail flags) := by
  refine failsIf_section measures_readExtra fun extra => ?_
  refine failsIf_section (measures_readString fun _ => rfl) fun name => ?_
  refine failsIf_section (measures_readString fun _ => rfl) fun comment => ?_
  simp only [Outcome.map_eq_andThen]
  exact failsIf_section measures_readChecksum fun checksum d => Or.inl ⟨_, rfl, id⟩

/-! ### Reading -/

section Reading
variable {offset : Nat} {d : Bytes}

theorem readHeader_eq_none : (readHeader offset d).1 = .ok none ↔ d = [] := by
  constructor
  · intro ended
    exact readHeader_none (Prod.ext ended rfl)
  · rintro rfl
    rw [readHeader_eq]
    rfl

theorem readHeader_eq_trailing {place n : Nat} :
    (readHeader offset d).1 = .error (.trailingBytes place n) ↔
      place = offset ∧ n = d.length ∧ 1 ≤ n ∧ n ≤ 9 := by
  rw [readHeader_eq]
  by_cases none : d = []
  · subst none
    simp only [if_true, List.length_nil]
    exact iff_of_false (by simp) (by omega)
  have some := List.length_pos_iff.mpr none
  rw [if_neg none]
  by_cases few : d.length < 10
  · rw [if_pos few]
    simp only [Except.error.injEq, Error.trailingBytes.injEq]
    constructor
    · rintro ⟨rfl, rfl⟩
      exact ⟨rfl, rfl, some, Nat.le_of_lt_succ few⟩
    · rintro ⟨rfl, rfl, _⟩
      exact ⟨rfl, rfl⟩
  · rw [if_neg few]
    refine iff_of_false ?_ (by omega)
    split
    · simp
    split
    · simp
    -- a section that cannot be read is an error of the stream
    rcases readTail ⟨d.getD 3 0⟩ (d.drop 10) with ⟨_ | _, _⟩
    · rintro ⟨⟩
    · rintro ⟨⟩

/-- With good fixed bytes, all that can go wrong is a cut. -/
theorem readHeader_cases (long : 10 ≤ d.length) (begun : d.take 2 = magic)
    (method : d.getD 2 0 = deflateMethod) :
    (∃ found, (readHeader offset d).1 = .ok (some found) ∧
      ¬ SectionCut ⟨d.getD 3 0⟩ Flag.ofSections (d.drop 10)) ∨
    ∃ e, (readHeader offset d).1 = .error (.stream e) ∧ e.kind = .unexpectedEof ∧
      SectionCut ⟨d.getD 3 0⟩ Flag.ofSections (d.drop 10) := by
  have some : d ≠ [] := by
    rintro rfl
    simp at long
  rw [readHeader_eq, if_neg some, if_neg (Nat.not_lt.mpr long), if_neg (not_not_intro begun),
    if_neg (not_not_intro method)]
  rcases failsIf_readTail ⟨d.getD 3 0⟩ (d.drop 10) with ⟨tail, answer, whole⟩ |
    ⟨e, answer, short, cut⟩
  · have call : readTail ⟨d.getD 3 0⟩ (d.drop 10) = (.ok tail, _) := Prod.ext answer rfl
    rw [call]
    exact Or.inl ⟨_, rfl, whole⟩
  · have call : readTail ⟨d.getD 3 0⟩ (d.drop 10) = (.error e, _) := Prod.ext answer rfl
    rw [call]
    exact Or.inr ⟨e, rfl, short, cut⟩

/-- A header as it should be: no reserved flags, and the checksum, if it states one, is right. -/
structure Found.IsSound (found : Found) : Prop where
  plain : found.reserved = 0
  agrees : found.checksum.all (·.agrees)

theorem agrees_copied (stated : Option UInt16) :
    (stated.map fun c => (⟨c, c⟩ : Comparison UInt16)).all (·.agrees) := by
  cases stated <;> simp [Comparison.agrees]

/-- What is read without a fault is the encoding of its header. -/
theorem readHeader_encode {found : Found} {rest : Bytes}
    (read : readHeader offset d = (.ok (some found), rest)) :
    found.length ≤ d.length ∧ rest = d.drop found.length ∧
      (found.IsSound → found.header.encode = .ok (d.take found.length)) := by
  obtain ⟨t, rfl, rfl⟩ := readHeader_text read
  have length : t.found.length = t.bytes.length := rfl
  rw [length, List.drop_left, List.take_left, List.length_append]
  refine ⟨Nat.le_add_right .., rfl, fun sound => ?_⟩
  rw [t.bytes_eq sound.plain sound.agrees]
  exact t.fits.encode_eq

theorem Header.Fits.readHeader_eq {h : Header} (fits : h.Fits) (offset : Nat) (rest : Bytes) :
    readHeader offset (h.bytes ++ rest) =
      (.ok (some
        { header := h
          reserved := 0
          checksum := h.checksum?.map fun c => ⟨c, c⟩
          length := h.bytes.length }), rest) := by
  rw [← fits.found_text]
  exact readHeader_text_append offset fits.text rest

/-- Behind a source that is only interrupted there are just its bytes. -/
theorem readHeader_source {source : Source} (calm : source.OnlyInterrupted) (offset : Nat) :
    ∃ s', readHeader offset source = ((readHeader offset source.bytes).1, s') ∧
      s'.bytes = (readHeader offset source.bytes).2 := by
  have holds := Source.holds_onlyInterrupted calm
  obtain ⟨s', answer, left⟩ :=
    agrees_readHeader (Source.tracks (·.isInterrupted)) quiet_interrupted offset holds
  exact ⟨s', answer, left.1⟩

theorem readHeader_bytes {source s' : Source} {found : Found} (calm : source.OnlyInterrupted)
    (read : readHeader offset source = (.ok (some found), s')) :
    readHeader offset source.bytes = (.ok (some found), s'.bytes) := by
  obtain ⟨t, answer, left⟩ := readHeader_source calm offset
  rw [read, Prod.mk.injEq] at answer
  obtain ⟨same, rfl⟩ := answer
  exact Prod.ext same.symm left.symm

end Reading

/-- However the bytes of a source are cut and interrupted, a header that is found takes just the
bytes that it counts, and these are the encoding of what it says, unless it has a fault; so no two
sound headers say the same. There is none exactly at the end, a tail exactly of one to nine bytes,
and behind ten good bytes nothing fails but a section that the end cuts. -/
theorem readHeader_exact (offset : Nat) {source : Source} (calm : source.OnlyInterrupted) :
    ((readHeader offset source).1 = .ok none ↔ source.bytes = []) ∧
    (∀ place n, (readHeader offset source).1 = .error (.trailingBytes place n) ↔
      place = offset ∧ n = source.bytes.length ∧ 1 ≤ n ∧ n ≤ 9) ∧
    (10 ≤ source.bytes.length → source.bytes.take 2 = magic →
      source.bytes.getD 2 0 = deflateMethod →
      ((∃ e, (readHeader offset source).1 = .error e) ↔
        SectionCut ⟨source.bytes.getD 3 0⟩ Flag.ofSections (source.bytes.drop 10)) ∧
      ∀ e, (readHeader offset source).1 = .error e →
        ∃ e', e = .stream e' ∧ e'.kind = .unexpectedEof) ∧
    (∀ found s', readHeader offset source = (.ok (some found), s') →
      found.length ≤ source.bytes.length ∧ s'.bytes = source.bytes.drop found.length ∧
        (found.IsSound → found.header.encode = .ok (source.bytes.take found.length))) ∧
    ∀ (place : Nat) (other : Source) found found' s' t', other.OnlyInterrupted →
      readHeader offset source = (.ok (some found), s') →
      readHeader place other = (.ok (some found'), t') → found.IsSound → found'.IsSound →
      found.header = found'.header →
      source.bytes.take found.length = other.bytes.take found'.length := by
  obtain ⟨_, answer, _⟩ := readHeader_source calm offset
  refine ⟨?_, fun place n => ?_, fun long begun method => ?_, fun found s' read => ?_, ?_⟩
  · rw [answer]
    exact readHeader_eq_none
  · rw [answer]
    exact readHeader_eq_trailing
  · rw [answer]
    rcases readHeader_cases long begun method with ⟨found, ok, whole⟩ | ⟨e, failed, short, cut⟩
    · rw [ok]
      exact ⟨iff_of_false (by simp) whole, by simp⟩
    · rw [failed]
      refine ⟨iff_of_true ⟨_, rfl⟩ cut, ?_⟩
      rintro _ ⟨⟩
      exact ⟨e, rfl, short⟩
  · exact readHeader_encode (readHeader_bytes calm read)
  · intro place other found found' s' t' calm' read read' sound sound' same
    have encoded := (readHeader_encode (readHeader_bytes calm read)).2.2 sound
    have encoded' := (readHeader_encode (readHeader_bytes calm' read')).2.2 sound'
    rw [same, encoded'] at encoded
    exact (Except.ok.inj encoded).symm

/-- A header with a name and a checksum. -/
def namedHeader : Header := { hasChecksum := true, name := some [0x61, 0x62] }

theorem namedHeader.fits : namedHeader.Fits :=
  ⟨rfl, by simp [namedHeader], by simp [namedHeader], by simp [namedHeader]⟩

/-- The header, interrupted in its name, and a byte behind it. -/
def interruptedHeader : Source :=
  ⟨[.chunk (namedHeader.bytes.take 11), .failure (.device .interrupted "again"),
    .chunk (namedHeader.bytes.drop 11 ++ [0xCB])]⟩

theorem interruptedHeader.calm : interruptedHeader.OnlyInterrupted := by
  simp [Source.OnlyInterrupted, interruptedHeader, Source.failures, StreamError.isInterrupted,
    StreamError.kind]

theorem interruptedHeader.whole : interruptedHeader.bytes = namedHeader.bytes ++ [0xCB] := by
  simp [interruptedHeader, Source.bytes, Source.Event.bytes, ← List.append_assoc]

theorem readHeader_exact_interrupted :
    interruptedHeader.OnlyInterrupted ∧
      ∃ found s', readHeader 5 interruptedHeader = (.ok (some found), s') ∧ s'.bytes = [0xCB] ∧
        found.header.encode = .ok (interruptedHeader.bytes.take found.length) := by
  obtain ⟨_, _, _, found, _⟩ := readHeader_exact 5 interruptedHeader.calm
  obtain ⟨s', answer, left⟩ := readHeader_source interruptedHeader.calm 5
  rw [interruptedHeader.whole, namedHeader.fits.readHeader_eq] at answer left
  obtain ⟨_, _, encoded⟩ := found _ s' answer
  have sound := encoded ⟨rfl, agrees_copied namedHeader.checksum?⟩
  exact ⟨interruptedHeader.calm, _, s', answer, left, sound⟩

/-! ### Writing -/

theorem Header.readHeader_otherMethod {h : Header} {offset : Nat} {rest : Bytes}
    (other : h.method ≠ deflateMethod) :
    (readHeader offset (h.bytes ++ rest)).1 = .error (.unsupportedMethod offset h.method) := by
  have long : 10 ≤ (h.bytes ++ rest).length := by
    simp only [Header.bytes, List.length_append, Header.length_fixed]
    omega
  have some : h.bytes ++ rest ≠ [] :=
    List.ne_nil_of_length_pos (Nat.lt_of_lt_of_le (by decide) long)
  have begun : (h.bytes ++ rest).take 2 = magic := by
    simp [Header.bytes, Header.fixed, magic]
  have method : (h.bytes ++ rest).getD 2 0 = h.method := by
    simp [Header.bytes, Header.fixed, magic]
  rw [readHeader_eq, if_neg some, if_neg (Nat.not_lt.mpr long), if_neg (not_not_intro begun),
    method, if_pos other]

/-- Whatever is encoded is read back as it was, with a checksum exactly if it was asked for, and
nothing behind it is taken, provided that its method is the one that is read. A header with any
other method is encoded too, and cannot be read. -/
theorem Header.encode_exact {h : Header} {bytes rest : Bytes} (encoded : h.encode = .ok bytes)
    (offset : Nat) {source : Source} (whole : source.bytes = bytes ++ rest)
    (calm : source.OnlyInterrupted) :
    (h.method = deflateMethod → ∃ found s', readHeader offset source = (.ok (some found), s') ∧
      found.header = h ∧ found.reserved = 0 ∧ found.checksum.isSome = h.hasChecksum ∧
      found.checksum.all (·.agrees) ∧ found.length = bytes.length ∧ s'.bytes = rest) ∧
    (h.method ≠ deflateMethod →
      (readHeader offset source).1 = .error (.unsupportedMethod offset h.method)) := by
  obtain rfl := Header.eq_bytes_of_encode encoded
  obtain ⟨s', answer, left⟩ := readHeader_source calm offset
  rw [whole] at answer left
  refine ⟨fun method => ?_, fun other => ?_⟩
  · have fits := Header.Fits.of_encode encoded method
    rw [fits.readHeader_eq] at answer left
    refine ⟨_, s', answer, rfl, rfl, ?_, ?_, rfl, left⟩
    · rw [Option.isSome_map]
      unfold checksum?
      cases h.hasChecksum <;> rfl
    · exact agrees_copied h.checksum?
  · rw [answer]
    exact Header.readHeader_otherMethod other

theorem Header.encode_exact_interrupted :
    ∃ bytes found s', namedHeader.encode = .ok bytes ∧
      readHeader 5 interruptedHeader = (.ok (some found), s') ∧ found.header = namedHeader ∧
      found.checksum.isSome ∧ found.length = bytes.length ∧ s'.bytes = [0xCB] := by
  obtain ⟨found, s', read, same, _, stated, _, length, left⟩ :=
    (Header.encode_exact namedHeader.fits.encode_eq 5 interruptedHeader.whole
      interruptedHeader.calm).1 rfl
  exact ⟨_, found, s', namedHeader.fits.encode_eq, read, same, stated, length, left⟩

/-- A header that is encoded and cannot be read. -/
theorem Header.encode_unreadable :
    ∃ bytes, ({ method := 7 } : Header).encode = .ok bytes ∧
      (readHeader 0 (Source.ofBytes bytes)).1 = .error (.unsupportedMethod 0 7) := by
  have encoded : ({ method := 7 } : Header).encode = .ok (Header.bytes { method := 7 }) := rfl
  have calm : (Source.ofBytes (Header.bytes { method := 7 })).OnlyInterrupted := by
    simp [Source.OnlyInterrupted, Source.ofBytes, Source.failures]
  have whole : (Source.ofBytes (Header.bytes { method := 7 })).bytes =
      Header.bytes { method := 7 } ++ [] := by
    simp [Source.ofBytes, Source.bytes, Source.Event.bytes]
  obtain ⟨_, answer, _⟩ := readHeader_source calm 0
  rw [whole] at answer
  refine ⟨_, encoded, ?_⟩
  rw [answer]
  exact Header.readHeader_otherMethod (by decide)

end WebArchive.Gzip
