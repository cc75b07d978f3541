import WebArchive.Gzip.Found
import WebArchive.Proofs.Checksum
import WebArchive.Proofs.Stream.Tracking

/-!
Headers of members as they stand in a container. `Gets` says that a reader takes exactly some
bytes, wherever a stream has them in front; readers put one behind the other take their bytes one
behind the other. Main fact: `gets_readHeader`.
-/
namespace WebArchive.Gzip

variable {σ α β ε δ : Type} {I : σ → Bytes → Prop}

/-- Wherever a stream has the bytes in front, they are just what is read, and they say `a`. -/
def Gets (I : σ → Bytes → Prop) (read : σ → Outcome ε σ α) (bytes : Bytes) (a : α) : Prop :=
  ∀ ⦃s behind⦄, I s (bytes ++ behind) → ∃ s', read s = (.ok a, s') ∧ I s' behind

namespace Gets
variable {read : σ → Outcome ε σ α} {bytes more : Bytes} {a : α} {b : β}

theorem andThen {next : α → σ → Outcome ε σ β} (first : Gets I read bytes a)
    (second : Gets I (next a) more b) :
    Gets I (fun s => (read s).andThen next) (bytes ++ more) b := by
  intro s behind h
  rw [List.append_assoc] at h
  obtain ⟨s₁, answer, held⟩ := first h
  obtain ⟨s₂, answer', held'⟩ := second held
  exact ⟨s₂, by simp only [answer, Outcome.andThen, answer'], held'⟩

theorem map (h : Gets I read bytes a) (f : α → β) :
    Gets I (fun s => (read s).map f) bytes (f a) := by
  intro s behind held
  obtain ⟨s', answer, left⟩ := h held
  exact ⟨s', Outcome.map_eq_ok.mpr ⟨a, answer, rfl⟩, left⟩

theorem mapError (h : Gets I read bytes a) (f : ε → δ) :
    Gets I (fun s => (read s).mapError f) bytes a := by
  intro s behind held
  obtain ⟨s', answer, left⟩ := h held
  exact ⟨s', Outcome.mapError_eq_ok.mpr answer, left⟩

end Gets

theorem gets_readIf (read : σ → Answer σ α) {present : Bool} {value : Option α} {text : α → Bytes}
    (flag : present = value.isSome) (h : ∀ a, value = some a → Gets I read (text a) a) :
    Gets I (readIf present read) (value.elim [] text) value := by
  subst flag
  cases value with
  | none => exact fun s behind held => ⟨s, rfl, held⟩
  | some a => exact (h a rfl).map some

section Parts
variable [Peekable σ] {E : StreamError → Prop}
open Readable

theorem gets_readFull (t : Readable.Tracks I E) (quiet : Quiet E) {n : Nat} {bytes : Bytes}
    (size : bytes.length = n) : Gets I (readFull · n) bytes bytes := by
  intro s behind h
  obtain ⟨s', answer, left⟩ := t.readFull_eq quiet h (n := n)
  subst size
  rw [List.take_left] at answer
  rw [List.drop_left] at left
  exact ⟨s', answer, left⟩

theorem gets_readExact (t : Readable.Tracks I E) (quiet : Quiet E) {n : Nat} {bytes : Bytes}
    (size : bytes.length = n) : Gets I (readExact · n) bytes bytes := by
  intro s behind h
  obtain ⟨s', answer, left⟩ := t.readExact_eq quiet h
    (by rw [List.length_append]; omega : n ≤ (bytes ++ behind).length)
  subst size
  rw [List.take_left] at answer
  rw [List.drop_left] at left
  exact ⟨s', answer, left⟩

theorem gets_readExtra (t : Readable.Tracks I E) (quiet : Quiet E) {extra : Bytes}
    (few : extra.length < 65536) : Gets I readExtra (extraSection extra) extra := by
  refine (gets_readExact t quiet (Bytes.length_littleEndian 2 extra.length)).andThen ?_
  rw [Bytes.ofLittleEndian_littleEndian 2 _ (by simpa using few)]
  exact gets_readExact t quiet rfl

theorem gets_readString (t : Peekable.Tracks I E) (quiet : Quiet E) {value : Bytes}
    (clean : 0 ∉ value) : Gets I readString (stringSection value) value := by
  intro s behind h
  obtain ⟨whole, found⟩ : (stringSection value).takeWhile (· ≠ 0) = value ∧
      ((stringSection value).takeWhile (· ≠ 0)).length < (stringSection value).length :=
    takeWhile_stopped clean
  obtain ⟨s', answer, left⟩ := t.readThrough_eq quiet 0 h
  rw [takeWhile_of_found found, take_through behind found] at answer
  rw [takeWhile_of_found found, whole] at left
  rw [whole] at answer
  have size : value.length + 1 = (stringSection value).length := by
    rw [stringSection, List.length_append]
    rfl
  rw [size, List.drop_left] at left
  refine ⟨s', ?_, left⟩
  simp [readString, answer, Outcome.andThen]

theorem readHeader_end (t : Readable.Tracks I E) (quiet : Quiet E) (offset : Nat) {s : σ}
    (h : I s []) : ∃ s', readHeader offset s = (.ok none, s') ∧ I s' [] := by
  obtain ⟨s', answer, left⟩ := t.readFull_eq quiet h (n := 10)
  exact ⟨s', by simp only [readHeader, answer]; rfl, left⟩

end Parts

/-! ### Headers -/

def Header.announces (h : Header) : Flag → Bool
  | .text => h.isText
  | .headerChecksum => h.hasChecksum
  | .extra => h.extra.isSome
  | .name => h.name.isSome
  | .comment => h.comment.isSome

theorem Header.has_flags (h : Header) (flag : Flag) : h.flags.has flag = h.announces flag := by
  cases flag <;> simp [flags, Flags.has_set, announces]

theorem Header.reserved_flags (h : Header) : h.flags.reserved = 0 := by
  unfold flags
  generalize h.isText = a
  generalize h.hasChecksum = b
  generalize h.extra.isSome = c
  generalize h.name.isSome = d
  generalize h.comment.isSome = e
  revert a b c d e
  decide

/-- A header that can be written in front of deflate data. -/
structure Header.Fits (h : Header) : Prop where
  method : h.method = deflateMethod
  extra : ∀ bs, h.extra = some bs → bs.length ≤ 65535
  name : ∀ bs, h.name = some bs → 0 ∉ bs
  comment : ∀ bs, h.comment = some bs → 0 ∉ bs

theorem Header.Fits.encode_eq {h : Header} (fits : h.Fits) : h.encode = .ok h.bytes := by
  have extra : h.extra.any (65536 ≤ ·.length) = false := by
    rw [Option.any_eq_false]
    intro bs some
    have := fits.extra bs some
    exact decide_eq_false (by omega)
  have name : h.name.any (0 ∈ ·) = false := by
    rw [Option.any_eq_false]
    exact fun bs some => by simpa using fits.name bs some
  have comment : h.comment.any (0 ∈ ·) = false := by
    rw [Option.any_eq_false]
    exact fun bs some => by simpa using fits.comment bs some
  simp [encode, misfit?, extra, name, comment]

/-- A header as it may stand in a container. Its reserved flags are free, and so is the checksum
that it states. -/
structure HeaderText where
  header : Header
  flags : Flags
  stated : Option UInt16
  fits : header.Fits
  announced : ∀ flag, flags.has flag = header.announces flag
  checked : stated.isSome = header.hasChecksum

namespace HeaderText

def body (t : HeaderText) : Bytes := t.header.fixed t.flags ++ t.header.sections

def bytes (t : HeaderText) : Bytes :=
  t.body ++ t.stated.elim [] fun c => Bytes.littleEndian 2 c.toNat

def found (t : HeaderText) : Found where
  header := t.header
  reserved := t.flags.reserved
  checksum := t.stated.map fun c => ⟨c, Crc32.low16 t.body⟩
  length := t.bytes.length

def tail (t : HeaderText) : Tail where
  extra := t.header.extra
  name := t.header.name
  comment := t.header.comment
  checksum := t.stated.map (·.toNat)

theorem ofParts_tail (t : HeaderText) :
    Found.ofParts (t.header.fixed t.flags) t.flags t.tail = t.found := by
  have time : UInt32.ofNat (Bytes.ofLittleEndian (Bytes.littleEndian 4 t.header.time.toNat)) =
      t.header.time := by
    rw [Bytes.ofLittleEndian_littleEndian 4 _ (by simpa using t.header.time.toNat_lt)]
    exact UInt32.ofNat_toNat
  have header : (Found.ofParts (t.header.fixed t.flags) t.flags t.tail).header = t.header := by
    obtain ⟨header, flags, stated, fits, announced, checked⟩ := t
    have text : flags.has .text = header.isText := announced .text
    have hasChecksum : flags.has .headerChecksum = header.hasChecksum := announced .headerChecksum
    have four : ((header.fixed flags).drop 4).take 4 = Bytes.littleEndian 4 header.time.toNat := by
      simp [Header.fixed, magic, Bytes.littleEndian]
    simp only [Found.ofParts, four, time, text, hasChecksum, tail]
    simp [Header.fixed, magic, Bytes.littleEndian]
  have length : (Found.ofParts (t.header.fixed t.flags) t.flags t.tail).length =
      t.bytes.length := by
    show (t.header.fixed t.flags ++ (Found.ofParts (t.header.fixed t.flags) t.flags
      t.tail).header.sections).length + (if t.tail.checksum.isSome then 2 else 0) = _
    rw [header, bytes, body, List.length_append]
    cases known : t.stated <;> simp [tail, known, Nat.add_assoc]
  have checksum : (Found.ofParts (t.header.fixed t.flags) t.flags t.tail).checksum =
      t.stated.map fun c => ⟨c, Crc32.low16 t.body⟩ := by
    show (t.tail.checksum.map fun stated => (⟨UInt16.ofNat stated, (Crc32.update {}
      (t.header.fixed t.flags ++ (Found.ofParts (t.header.fixed t.flags) t.flags
        t.tail).header.sections)).value16⟩ : Comparison UInt16)) = _
    rw [header, Crc32.value16_update]
    simp [tail, body, Function.comp_def]
  exact (Found.mk.injEq ..).mpr ⟨header, rfl, checksum, length⟩

variable [Peekable σ] {E : StreamError → Prop}

theorem gets_readTail (t : HeaderText) (tracks : Peekable.Tracks I E) (quiet : Quiet E) :
    Gets I (readTail t.flags)
      (t.header.sections ++ t.stated.elim [] fun c => Bytes.littleEndian 2 c.toNat) t.tail := by
  have extra := gets_readIf (I := I) readExtra (t.announced .extra) fun bs some =>
    gets_readExtra tracks.toTracks quiet (Nat.lt_succ_of_le (t.fits.extra bs some))
  have name := gets_readIf (I := I) readString (t.announced .name) fun bs some =>
    gets_readString tracks quiet (t.fits.name bs some)
  have comment := gets_readIf (I := I) readString (t.announced .comment) fun bs some =>
    gets_readString tracks quiet (t.fits.comment bs some)
  have checksum : Gets I (readIf (t.flags.has .headerChecksum) (Readable.readExact · 2))
      ((t.stated.map fun c => Bytes.littleEndian 2 c.toNat).elim [] id)
      (t.stated.map fun c => Bytes.littleEndian 2 c.toNat) := by
    refine gets_readIf _ (by rw [t.announced, Option.isSome_map, t.checked]; rfl) fun bs some => ?_
    obtain ⟨c, _, rfl⟩ := Option.map_eq_some_iff.mp some
    exact gets_readExact tracks.toTracks quiet (Bytes.length_littleEndian ..)
  have written : t.header.sections ++ (t.stated.elim [] fun c => Bytes.littleEndian 2 c.toNat) =
      (t.header.extra.elim [] extraSection) ++ ((t.header.name.elim [] stringSection) ++
        ((t.header.comment.elim [] stringSection) ++
          (t.stated.map fun c => Bytes.littleEndian 2 c.toNat).elim [] id)) := by
    cases t.stated <;> simp [Header.sections]
  -- the parts are read in the order in which they are written
  rw [written]
  refine extra.andThen (name.andThen (comment.andThen ?_))
  have read : (t.stated.map fun c => Bytes.littleEndian 2 c.toNat).map Bytes.ofLittleEndian =
      t.stated.map (·.toNat) := by
    rw [Option.map_map]
    congr 1
    funext c
    exact Bytes.ofLittleEndian_littleEndian 2 _ (by simpa using c.toNat_lt)
  rw [tail, ← read]
  exact checksum.map fun checksum : Option Bytes =>
    (⟨t.header.extra, t.header.name, t.header.comment, checksum.map Bytes.ofLittleEndian⟩ : Tail)

/-- The header is found where it stands, and nothing is taken behind it. -/
theorem gets_readHeader (t : HeaderText) (tracks : Peekable.Tracks I E) (quiet : Quiet E)
    (offset : Nat) : Gets I (readHeader offset) t.bytes (some t.found) := by
  have fixed := (gets_readFull tracks.toTracks quiet (t.header.length_fixed t.flags)).mapError
    Error.stream
  have tail := ((t.gets_readTail tracks quiet).mapError Error.stream).map fun tail =>
    Option.some (Found.ofParts (t.header.fixed t.flags) t.flags tail)
  rw [ofParts_tail] at tail
  rw [bytes, body, List.append_assoc]
  refine fixed.andThen ?_
  have some : t.header.fixed t.flags ≠ [] := by simp [Header.fixed, magic]
  have long : ¬ (t.header.fixed t.flags).length < 10 := by simp [Header.length_fixed]
  have begun : (t.header.fixed t.flags).take 2 = magic := by simp [Header.fixed, magic]
  have method : (t.header.fixed t.flags).getD 2 0 = deflateMethod := by
    simp [Header.fixed, magic, t.fits.method]
  have flags : (⟨(t.header.fixed t.flags).getD 3 0⟩ : Flags) = t.flags := by
    simp [Header.fixed, magic]
  simp only [if_neg some, if_neg long, begun, method, flags, ne_eq, not_true_eq_false, if_false]
  exact tail

end HeaderText

def Header.Fits.text {h : Header} (fits : h.Fits) : HeaderText where
  header := h
  flags := h.flags
  stated := h.checksum?
  fits := fits
  announced := h.has_flags
  checked := by
    unfold checksum?
    cases h.hasChecksum <;> rfl

theorem Header.Fits.found_text {h : Header} (fits : h.Fits) :
    fits.text.found =
      { header := h
        reserved := 0
        checksum := h.checksum?.map fun c => ⟨c, c⟩
        length := h.bytes.length } := by
  have checksum : h.checksum?.map (fun c => (⟨c, Crc32.low16 fits.text.body⟩ : Comparison UInt16)) =
      h.checksum?.map fun c => ⟨c, c⟩ := by
    rw [← Crc32.value16_update, checksum?]
    cases h.hasChecksum <;> rfl
  exact (Found.mk.injEq ..).mpr ⟨rfl, h.reserved_flags, checksum, rfl⟩

end WebArchive.Gzip
