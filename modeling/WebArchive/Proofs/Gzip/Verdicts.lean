import WebArchive.Proofs.Archive.Refinement
import WebArchive.Proofs.Gzip.Stray

/-!
What is said of a member that is over follows from its bytes alone: from its header, its data and
its trailer, and not from how its data were read. Each fault is found just if it is there. Main
facts: `verdict_entry` and `verdict_exact`.
-/
namespace WebArchive.Gzip

/-- What is wrong with a member that has these bytes. -/
def Flawed (head data trailer : Bytes) : Fault → Prop
  | .reservedFlags => head.getD 3 0 >>> 5 ≠ 0
  | .extraFlags => head.getD 8 0 ≠ 0 ∧ head.getD 8 0 ≠ 2 ∧ head.getD 8 0 ≠ 4
  | .system => 13 < head.getD 9 0 ∧ head.getD 9 0 ≠ 255
  | .headerChecksum => Flags.has ⟨head.getD 3 0⟩ .headerChecksum ∧
      Bytes.ofLittleEndian (head.drop (head.length - 2)) ≠
        (Crc32.low16 (head.take (head.length - 2))).toNat
  | .dataChecksum => Bytes.ofLittleEndian (trailer.take 4) ≠ (Crc32.ofBytes data).toNat
  | .size => Bytes.ofLittleEndian (trailer.drop 4) ≠ data.length % 4294967296

instance (head data trailer : Bytes) : DecidablePred (Flawed head data trailer)
  | .reservedFlags => inferInstanceAs (Decidable (_ ≠ _))
  | .extraFlags => inferInstanceAs (Decidable (_ ≠ _ ∧ _ ≠ _ ∧ _ ≠ _))
  | .system => inferInstanceAs (Decidable (_ < _ ∧ _ ≠ _))
  | .headerChecksum => inferInstanceAs (Decidable (_ = true ∧ _ ≠ _))
  | .dataChecksum => inferInstanceAs (Decidable (_ ≠ _))
  | .size => inferInstanceAs (Decidable (_ ≠ _))

/-- What is said of a member that has these bytes. -/
structure Verdict (head packed data trailer : Bytes) (entry : Member) : Prop where
  ending : entry.ending = some
    { compressedSize := packed.length
      size := data.length
      checksum := ⟨UInt32.ofNat (Bytes.ofLittleEndian (trailer.take 4)), Crc32.ofBytes data⟩
      shortSize := ⟨UInt32.ofNat (Bytes.ofLittleEndian (trailer.drop 4)),
        UInt32.ofNat data.length⟩ }
  headerChecksum : entry.headerChecksum =
    if Flags.has ⟨head.getD 3 0⟩ .headerChecksum then
      some ⟨UInt16.ofNat (Bytes.ofLittleEndian (head.drop (head.length - 2))),
        Crc32.low16 (head.take (head.length - 2))⟩
    else none
  faults : ∀ fault, entry.faults.has fault ↔ Flawed head data trailer fault
  valid : entry.isValid ↔ ∀ fault, ¬ Flawed head data trailer fault

/-! ### Faults -/

theorem Faults.isEmpty_set (a b c d e f : Bool) :
    ((((((({} : Faults).set .extraFlags a).set .system b).set .reservedFlags c).set .size d).set
      .headerChecksum e).set .dataChecksum f).isEmpty = !(a || b || c || d || e || f) := by
  revert a b c d e f
  decide

/-- A member is valid if it has none of the faults. -/
theorem Member.isValid_iff (m : Member) : m.isValid ↔ ∀ fault, ¬ m.faults.has fault := by
  simp only [has_faults]
  have empty : m.isValid = !(m.isFaulty .extraFlags || m.isFaulty .system ||
      m.isFaulty .reservedFlags || m.isFaulty .size || m.isFaulty .headerChecksum ||
      m.isFaulty .dataChecksum) := Faults.isEmpty_set ..
  rw [empty]
  refine ⟨fun none fault => ?_, fun none => ?_⟩
  · cases fault <;> simp_all
  · simp [none]

namespace HeaderText

theorem getD_bytes (t : HeaderText) :
    t.bytes.getD 3 0 = t.flags.bits ∧ t.bytes.getD 8 0 = t.header.extraFlags ∧
      t.bytes.getD 9 0 = t.header.system := by
  simp [bytes, body, Header.fixed, magic, Bytes.littleEndian]

theorem has_checksum (t : HeaderText) : t.flags.has .headerChecksum = t.stated.isSome := by
  rw [t.announced, t.checked]
  rfl

/-- The last two bytes of a header that is marked to have a checksum state it. -/
theorem stated_bytes (t : HeaderText) {c : UInt16} (stated : t.stated = some c) :
    t.bytes.take (t.bytes.length - 2) = t.body ∧
      Bytes.ofLittleEndian (t.bytes.drop (t.bytes.length - 2)) = c.toNat := by
  have split : t.bytes = t.body ++ Bytes.littleEndian 2 c.toNat := by rw [bytes, stated]; rfl
  have length : t.bytes.length - 2 = t.body.length := by
    rw [split, List.length_append, Bytes.length_littleEndian, Nat.add_sub_cancel]
  rw [length, split, List.take_left, List.drop_left]
  exact ⟨rfl, Bytes.ofLittleEndian_littleEndian 2 _ (by simpa using c.toNat_lt)⟩

theorem headerChecksum_found (t : HeaderText) :
    t.found.checksum =
      if Flags.has ⟨t.bytes.getD 3 0⟩ .headerChecksum then
        some ⟨UInt16.ofNat (Bytes.ofLittleEndian (t.bytes.drop (t.bytes.length - 2))),
          Crc32.low16 (t.bytes.take (t.bytes.length - 2))⟩
      else none := by
  rw [t.getD_bytes.1]
  show t.stated.map _ = if t.flags.has .headerChecksum then _ else _
  rw [t.has_checksum]
  cases stated : t.stated with
  | none => rfl
  | some c =>
    obtain ⟨body, value⟩ := t.stated_bytes stated
    simp [body, value]

end HeaderText

theorem toNat_ofLittleEndian {bs : Bytes} (four : bs.length = 4) :
    (UInt32.ofNat (Bytes.ofLittleEndian bs)).toNat = Bytes.ofLittleEndian bs := by
  have small := Bytes.ofLittleEndian_lt bs
  rw [four] at small
  exact UInt32.toNat_ofNat_of_lt' small

theorem disagrees_some {stated computed : UInt32} :
    Member.disagrees (some ⟨stated, computed⟩) ↔ stated.toNat ≠ computed.toNat := by
  simp [Member.disagrees, Comparison.agrees, UInt32.toNat_inj]

namespace MemberText

theorem isFaulty_entry (t : MemberText) (index offset : Nat) (fault : Fault) :
    (t.entry index offset).isFaulty fault ↔ Flawed t.head.bytes t.data t.trailer fault := by
  obtain ⟨flags, extraFlags, system⟩ := t.head.getD_bytes
  have whole := t.whole
  cases fault with
  | extraFlags =>
    rw [Flawed, extraFlags]
    show (!isKnownCompression t.head.header.extraFlags) = true ↔ _
    simp [isKnownCompression, and_assoc]
  | system =>
    rw [Flawed, system]
    show (!isKnownSystem t.head.header.system) = true ↔ _
    simp [isKnownSystem]
  | reservedFlags =>
    rw [Flawed, flags]
    show (t.head.flags.reserved != 0) = true ↔ _
    simp [Flags.reserved]
  | size =>
    refine disagrees_some.trans ?_
    rw [toNat_ofLittleEndian (by rw [List.length_drop, whole]; rfl), UInt32.toNat_ofNat']
    rfl
  | headerChecksum =>
    show Member.disagrees (t.head.stated.map fun c => ⟨c, Crc32.low16 t.head.body⟩) = true ↔ _
    rw [Flawed, flags, t.head.has_checksum]
    cases stated : t.head.stated with
    | none => simp [Member.disagrees]
    | some c =>
      obtain ⟨body, value⟩ := t.head.stated_bytes stated
      simp [body, value, Member.disagrees, Comparison.agrees, UInt16.toNat_inj]
  | dataChecksum =>
    refine disagrees_some.trans ?_
    rw [toNat_ofLittleEndian (by rw [List.length_take, whole]; rfl), Crc32.value_update]
    rfl

/-- The entry of a member says of its bytes what is so. -/
theorem verdict_entry (t : MemberText) (index offset : Nat) :
    Verdict t.head.bytes t.packed t.data t.trailer (t.entry index offset) where
  ending := by
    rw [← Crc32.value_update]
    rfl
  headerChecksum := t.head.headerChecksum_found
  faults fault := by rw [Member.has_faults, isFaulty_entry]
  valid := by simp only [Member.isValid_iff, Member.has_faults, isFaulty_entry]

end MemberText

/-- Wherever a member stands in a container and whatever is read of it before it is finished, its
data come as they are, and its entry says of its bytes what is so. -/
theorem Container.verdict_exact {offset : Nat} {head packed data trailer behind : Bytes}
    {found : Found} {c : Container} (accepted : readHeader offset head = (.ok (some found), []))
    (encodes : Deflate.Encodes packed data) (whole : trailer.length = Member.trailerLength)
    (idle : c.current = none) (calm : c.input.source.failures = [])
    (held : c.input.source.bytes = head ++ (packed ++ trailer) ++ behind) (sizes : List Nat) :
    ∃ begun c₁ bs c₂ rest entry c₃, c.next = (.ok (some begun), c₁) ∧
      c₁.readEach sizes = (.ok bs, c₂) ∧ data = bs ++ rest ∧
      (∃ c', Readable.readAll c₂ = (.ok rest, c')) ∧ c₂.finish = (.ok (some entry), c₃) ∧
      Verdict head packed data trailer entry := by
  obtain ⟨text, rfl, rfl⟩ := readHeader_text accepted
  rw [List.append_nil] at held ⊢
  let t : MemberText := ⟨text, packed, data, trailer, encodes, whole⟩
  have between : Between noError c.count (c.position + (t.bytes ++ behind).length)
      (t.bytes ++ behind) c := by
    refine ⟨rfl, idle, ?_, rfl⟩
    rw [show t.bytes ++ behind = c.input.source.bytes from held.symm]
    exact Source.holds_noError calm
  obtain ⟨c₁, begun, inside⟩ := next_member quiet_noError between
  obtain ⟨bs, c₂, rest, read, split, inside⟩ := readEach_eq inside sizes
  obtain ⟨c', all, _⟩ := (tracks quiet_noError ..).readAll_eq quiet_noError inside
    Readable.Demand.isOpen_start
  obtain ⟨c₃, finished, _⟩ := finish_eq quiet_noError inside
  exact ⟨_, c₁, bs, c₂, rest, _, c₃, begun, read, split, ⟨c', all⟩, finished, t.verdict_entry ..⟩

/-- A member with a checked header whose trailer states a wrong checksum, read in two steps. -/
theorem Container.verdict_exact_damaged :
    ∃ begun c₁ bs c₂ rest entry c₃,
      (start ⟨[.chunk (({ hasChecksum := true } : Header).bytes ++
        (Deflate.compress [1, 2, 3] ++ [0, 0, 0, 0, 3, 0, 0, 0]))]⟩).next = (.ok (some begun), c₁) ∧
      c₁.readEach [2, 0] = (.ok bs, c₂) ∧ [1, 2, 3] = bs ++ rest ∧
      c₂.finish = (.ok (some entry), c₃) ∧
      (∀ fault, entry.faults.has fault ↔ fault = .dataChecksum) ∧ ¬ entry.isValid := by
  have fits : ({ hasChecksum := true } : Header).Fits := ⟨rfl, by simp, by simp, by simp⟩
  obtain ⟨_, accepted, rfl⟩ := fits.text.gets_readHeader Bytes.tracks quiet_noError 0
    (List.append_nil fits.text.bytes)
  obtain ⟨begun, c₁, bs, c₂, rest, entry, c₃, next, read, split, _, finished, verdict⟩ :=
    @verdict_exact 0 _ _ _ [0, 0, 0, 0, 3, 0, 0, 0] [] _ (start ⟨[.chunk (fits.text.bytes ++
      (Deflate.compress [1, 2, 3] ++ [0, 0, 0, 0, 3, 0, 0, 0]))]⟩) accepted
      (Deflate.encodes_compress [1, 2, 3]) rfl rfl rfl rfl [2, 0]
  have flaws (fault : Fault) : Flawed ({ hasChecksum := true } : Header).bytes [1, 2, 3]
      [0, 0, 0, 0, 3, 0, 0, 0] fault ↔ fault = .dataChecksum := by
    cases fault <;> decide +kernel
  refine ⟨begun, c₁, bs, c₂, rest, entry, c₃, next, read, split, finished,
    fun fault => (verdict.faults fault).trans (flaws fault), fun valid => ?_⟩
  exact verdict.valid.mp valid .dataChecksum ((flaws _).mpr rfl)

end WebArchive.Gzip
