import WebArchive.Gzip.Error
import WebArchive.Stream.Readable

/-!
Reading a member header from a stream. Main fact: `weight_found`, a header that is found takes
bytes, so there are fewer headers than bytes.
-/
namespace WebArchive.Gzip

/-- A value as it is written and as it comes out when computed. -/
structure Comparison (α : Type) where
  stated : α
  computed : α
  deriving DecidableEq

def Comparison.agrees {α : Type} [DecidableEq α] (c : Comparison α) : Bool := c.stated = c.computed

structure Found where
  header : Header
  /-- the reserved flags, zero in a compliant header -/
  reserved : UInt8
  checksum : Option (Comparison UInt16)
  /-- its number of bytes, checksum included -/
  length : Nat
  deriving DecidableEq

variable {σ : Type} [Peekable σ]
open Readable

def readIf {α : Type} (present : Bool) (read : σ → Answer σ α) (s : σ) : Answer σ (Option α) :=
  if present then (read s).map some else (.ok none, s)

def readExtra (s : σ) : Answer σ Bytes :=
  (readExact s 2).andThen fun length s => readExact s (Bytes.ofLittleEndian length)

/-- A string up to its zero byte, which is taken and left out. -/
def readString (s : σ) : Answer σ Bytes :=
  (Peekable.readThrough 0 s).andThen fun bs s =>
    if bs.getLast? = some 0 then (.ok bs.dropLast, s) else (.error .unterminatedString, s)

structure Tail where
  extra : Option Bytes
  name : Option Bytes
  comment : Option Bytes
  checksum : Option Nat

def readTail (flags : Flags) (s : σ) : Answer σ Tail :=
  (readIf (flags.has .extra) readExtra s).andThen fun extra s =>
  (readIf (flags.has .name) readString s).andThen fun name s =>
  (readIf (flags.has .comment) readString s).andThen fun comment s =>
  (readIf (flags.has .headerChecksum) (readExact · 2) s).map fun checksum =>
    ⟨extra, name, comment, checksum.map Bytes.ofLittleEndian⟩

/-- The header with these fixed bytes; one that does not have ten bytes is refused. -/
def Found.ofParts (fixed : Bytes) (flags : Flags) (tail : Tail) : Found :=
  let header : Header :=
    { method := fixed.getD 2 0
      isText := flags.has .text
      hasChecksum := flags.has .headerChecksum
      time := UInt32.ofNat (Bytes.ofLittleEndian ((fixed.drop 4).take 4))
      extraFlags := fixed.getD 8 0
      system := fixed.getD 9 0
      extra := tail.extra
      name := tail.name
      comment := tail.comment }
  let body := fixed ++ header.sections
  { header
    reserved := flags.reserved
    checksum := tail.checksum.map fun stated =>
      ⟨UInt16.ofNat stated, (Crc32.update {} body).value16⟩
    length := body.length + (if tail.checksum.isSome then 2 else 0) }

/-- The header at `offset`, none if the stream ends there. -/
def readHeader (offset : Nat) (s : σ) : Outcome Error σ (Option Found) :=
  ((readFull s 10).mapError .stream).andThen fun fixed s =>
    if fixed = [] then (.ok none, s)
    else if fixed.length < 10 then (.error (.trailingBytes offset fixed.length), s)
    else if fixed.take 2 ≠ magic then
      (.error (.badMagic offset (fixed.getD 0 0) (fixed.getD 1 0)), s)
    else if fixed.getD 2 0 ≠ deflateMethod then
      (.error (.unsupportedMethod offset (fixed.getD 2 0)), s)
    else
      let flags : Flags := ⟨fixed.getD 3 0⟩
      ((readTail flags s).mapError .stream).map fun tail => some (.ofParts fixed flags tail)

theorem weight_readIf_le {α : Type} {read : σ → Answer σ α} {present : Bool} {s : σ}
    (h : weight (read s).2 ≤ weight s) : weight (readIf present read s).2 ≤ weight s := by
  unfold readIf
  split
  · exact h
  · exact Nat.le_refl _

theorem weight_readExtra_le (s : σ) : weight (readExtra s).2 ≤ weight s :=
  weight_andThen_le (weight_readExact_le s 2) fun length s' le =>
    Nat.le_trans (weight_readExact_le s' (Bytes.ofLittleEndian length)) le

theorem weight_readString_le (s : σ) : weight (readString s).2 ≤ weight s :=
  weight_andThen_le (Peekable.weight_readThrough_le 0 s) fun bs s' le => by
    split <;> exact le

theorem weight_readTail_le (flags : Flags) (s : σ) : weight (readTail flags s).2 ≤ weight s := by
  refine weight_andThen_le (weight_readIf_le (weight_readExtra_le s)) fun extra s₁ le₁ => ?_
  refine weight_andThen_le (Nat.le_trans (weight_readIf_le (weight_readString_le s₁)) le₁)
    fun name s₂ le₂ => ?_
  refine weight_andThen_le (Nat.le_trans (weight_readIf_le (weight_readString_le s₂)) le₂)
    fun comment s₃ le₃ => ?_
  exact Nat.le_trans (weight_readIf_le (weight_readExact_le s₃ 2)) le₃

theorem weight_readHeader_le (offset : Nat) (s : σ) :
    weight (readHeader offset s).2 ≤ weight s := by
  refine weight_andThen_le (weight_readFull_le s 10) fun fixed s' le => ?_
  dsimp only
  split
  · exact le
  · split
    · exact le
    · split
      · exact le
      · split
        · exact le
        · exact Nat.le_trans (weight_readTail_le _ s') le

theorem weight_found {offset : Nat} {s s' : σ} {found : Found}
    (h : readHeader offset s = (.ok (some found), s')) : weight s' < weight s := by
  obtain ⟨fixed, s₁, first, h⟩ := Outcome.andThen_eq_ok.mp h
  have taken : weight s₁ + fixed.length ≤ weight s :=
    weight_readFull (Outcome.mapError_eq_ok.mp first)
  have rest := weight_readTail_le ⟨fixed.getD 3 0⟩ s₁
  split at h
  · simp at h
  · split at h
    · simp at h
    · split at h
      · simp at h
      · split at h
        · simp at h
        · obtain ⟨tail, called, _⟩ := Outcome.map_eq_ok.mp h
          have same : (readTail ⟨fixed.getD 3 0⟩ s₁).2 = s' := congrArg Prod.snd called
          rw [same] at rest
          omega

end WebArchive.Gzip
