import WebArchive.Bytes
import WebArchive.Deflate.PrefixCode

/-!
Inflating as a machine that takes one byte at a time and bit after bit of it, the low bit first.
Its output grows by what each bit decides. Main facts: `size_byte_le` bounds the growth by one
byte of input, and `inflate_append`, the machine does not see where its input was cut.
-/
namespace WebArchive.Deflate

structure Codes where
  literal : PrefixCode
  distance : PrefixCode

/-- How many code lengths of each kind a dynamic block announces. -/
structure Sizes where
  literals : Nat
  distances : Nat
  lengthCodes : Nat

def Sizes.total (s : Sizes) : Nat := s.literals + s.distances

/-- What a number is read for. -/
inductive Goal where
  | blockHeader
  | sizes
  /-- the lengths of the length codes, the last one first -/
  | lengthCode (sizes : Sizes) (read : List Nat)
  /-- a repetition of one length, at least `least` times -/
  | repetition (sizes : Sizes) (code : PrefixCode) (lengths : List Nat) (length least : Nat)
  | matchLength (codes : Codes) (base : Nat)
  | matchDistance (codes : Codes) (length base : Nat)

/-- What the next bit or byte belongs to. -/
inductive Mode where
  /-- `left` bits are still to come, the next one worth `2 ^ place` -/
  | number (goal : Goal) (left place value : Nat)
  | lengthSymbol (sizes : Sizes) (code : PrefixCode) (lengths : List Nat) (walk : Walk)
  | literalSymbol (codes : Codes) (walk : Walk)
  | distanceSymbol (codes : Codes) (length : Nat) (walk : Walk)
  /-- the length of a stored block and its complement, from the next byte on -/
  | storedHeader (read : Bytes)
  | stored (left : Nat)
  | finished
  | corrupt

structure State where
  mode : Mode := .number .blockHeader 3 0 0
  /-- the current block is the last one -/
  final : Bool := false
  output : Array UInt8 := #[]

namespace State

def isFinished (s : State) : Bool := s.mode matches .finished

def isCorrupt (s : State) : Bool := s.mode matches .corrupt

def isHalted (s : State) : Bool := s.isFinished || s.isCorrupt

def corrupted (s : State) : State := { s with mode := .corrupt }

def endBlock (s : State) : State :=
  { s with mode := if s.final then .finished else .number .blockHeader 3 0 0 }

def beginSymbol (s : State) (codes : Codes) : State :=
  { s with mode := .literalSymbol codes codes.literal.begin }

def fixedCodes : Option Codes := do
  let literal ← PrefixCode.ofLengths?
    (List.replicate 144 8 ++ List.replicate 112 9 ++ List.replicate 24 7 ++ List.replicate 8 8)
  let distance ← PrefixCode.ofLengths? (List.replicate 32 5)
  some ⟨literal, distance⟩

def beginCompressed (s : State) (codes : Option Codes) : State :=
  match codes with
  | some codes => s.beginSymbol codes
  | none => s.corrupted

def lengthCodeOrder : List Nat := [16, 17, 18, 0, 8, 7, 9, 6, 10, 5, 11, 4, 12, 3, 13, 2, 14, 1, 15]

/-- The lengths of the length codes by symbol; the ones that are not written are zero. -/
def arrangeLengthCodes (written : List Nat) : List Nat :=
  (List.range 19).map fun symbol =>
    (((lengthCodeOrder.zip written).find? fun (s, _) => s = symbol).map (·.2)).getD 0

/-- Goes on with the code lengths, the last one first, or builds the codes if all are there. -/
def withLengths (s : State) (sizes : Sizes) (code : PrefixCode) (lengths : List Nat) : State :=
  if sizes.total < lengths.length then s.corrupted
  else if lengths.length = sizes.total then
    let all := lengths.reverse
    s.beginCompressed do
      let literal ← PrefixCode.ofLengths? (all.take sizes.literals)
      let distance ← PrefixCode.ofLengths? (all.drop sizes.literals)
      some ⟨literal, distance⟩
  else { s with mode := .lengthSymbol sizes code lengths code.begin }

def lengthSymbol (s : State) (sizes : Sizes) (code : PrefixCode) (lengths : List Nat)
    (symbol : Nat) : State :=
  if symbol < 16 then s.withLengths sizes code (symbol :: lengths)
  else if symbol = 16 then
    match lengths with
    | [] => s.corrupted
    | last :: _ => { s with mode := .number (.repetition sizes code lengths last 3) 2 0 0 }
  else if symbol = 17 then { s with mode := .number (.repetition sizes code lengths 0 3) 3 0 0 }
  else { s with mode := .number (.repetition sizes code lengths 0 11) 7 0 0 }

/-- The least length and the number of extra bits for the symbols from 257 on. -/
def lengthBases : List (Nat × Nat) :=
  [(3, 0), (4, 0), (5, 0), (6, 0), (7, 0), (8, 0), (9, 0), (10, 0), (11, 1), (13, 1), (15, 1),
   (17, 1), (19, 2), (23, 2), (27, 2), (31, 2), (35, 3), (43, 3), (51, 3), (59, 3), (67, 4),
   (83, 4), (99, 4), (115, 4), (131, 5), (163, 5), (195, 5), (227, 5), (258, 0)]

/-- The least distance and the number of extra bits for each distance symbol. -/
def distanceBases : List (Nat × Nat) :=
  [(1, 0), (2, 0), (3, 0), (4, 0), (5, 1), (7, 1), (9, 2), (13, 2), (17, 3), (25, 3), (33, 4),
   (49, 4), (65, 5), (97, 5), (129, 6), (193, 6), (257, 7), (385, 7), (513, 8), (769, 8),
   (1025, 9), (1537, 9), (2049, 10), (3073, 10), (4097, 11), (6145, 11), (8193, 12), (12289, 12),
   (16385, 13), (24577, 13)]

def maxMatch : Nat := 258

/-- Repeats bytes of the output, one by one, so that a copy may overlap itself. -/
def copyMatch (length distance : Nat) (output : Array UInt8) : Array UInt8 :=
  Nat.repeat (fun out => out.push (out.getD (out.size - distance) 0)) (min length maxMatch) output

def emitMatch (s : State) (codes : Codes) (length distance : Nat) : State :=
  if s.output.size < distance then s.corrupted
  else { s with output := copyMatch length distance s.output }.beginSymbol codes

def beginDistance (s : State) (codes : Codes) (length : Nat) : State :=
  { s with mode := .distanceSymbol codes length codes.distance.begin }

def literalSymbol (s : State) (codes : Codes) (symbol : Nat) : State :=
  if symbol < 256 then { s with output := s.output.push (UInt8.ofNat symbol) }.beginSymbol codes
  else if symbol = 256 then s.endBlock
  else match lengthBases[symbol - 257]? with
    | some (base, 0) => s.beginDistance codes base
    | some (base, extra) => { s with mode := .number (.matchLength codes base) extra 0 0 }
    | none => s.corrupted

def distanceSymbol (s : State) (codes : Codes) (length symbol : Nat) : State :=
  match distanceBases[symbol]? with
  | some (base, 0) => s.emitMatch codes length base
  | some (base, extra) => { s with mode := .number (.matchDistance codes length base) extra 0 0 }
  | none => s.corrupted

def reachedNumber (s : State) (goal : Goal) (value : Nat) : State :=
  match goal with
  | .blockHeader =>
    let s := { s with final := value % 2 = 1 }
    if value / 2 = 0 then { s with mode := .storedHeader [] }
    else if value / 2 = 1 then s.beginCompressed fixedCodes
    else if value / 2 = 2 then { s with mode := .number .sizes 14 0 0 }
    else s.corrupted
  | .sizes =>
    let sizes := ⟨value % 32 + 257, value / 32 % 32 + 1, value / 1024 + 4⟩
    if 286 < sizes.literals ∨ 30 < sizes.distances then s.corrupted
    else { s with mode := .number (.lengthCode sizes []) 3 0 0 }
  | .lengthCode sizes read =>
    let read := value :: read
    if read.length < sizes.lengthCodes then
      { s with mode := .number (.lengthCode sizes read) 3 0 0 }
    else match PrefixCode.ofLengths? (arrangeLengthCodes read.reverse) with
      | some code => { s with mode := .lengthSymbol sizes code [] code.begin }
      | none => s.corrupted
  | .repetition sizes code lengths length least =>
    s.withLengths sizes code (List.replicate (least + value) length ++ lengths)
  | .matchLength codes base => s.beginDistance codes (base + value)
  | .matchDistance codes length base => s.emitMatch codes length (base + value)

/-- One bit; where whole bytes are expected, the bits before the next byte are passed over. -/
def bit (s : State) (b : Bool) : State :=
  match s.mode with
  | .number goal left place value =>
    let value := value + (if b then 1 <<< place else 0)
    if left ≤ 1 then s.reachedNumber goal value
    else { s with mode := .number goal (left - 1) (place + 1) value }
  | .lengthSymbol sizes code lengths walk =>
    match code.advance walk b with
    | .symbol symbol => s.lengthSymbol sizes code lengths symbol
    | .inside walk => { s with mode := .lengthSymbol sizes code lengths walk }
    | .nothing => s.corrupted
  | .literalSymbol codes walk =>
    match codes.literal.advance walk b with
    | .symbol symbol => s.literalSymbol codes symbol
    | .inside walk => { s with mode := .literalSymbol codes walk }
    | .nothing => s.corrupted
  | .distanceSymbol codes length walk =>
    match codes.distance.advance walk b with
    | .symbol symbol => s.distanceSymbol codes length symbol
    | .inside walk => { s with mode := .distanceSymbol codes length walk }
    | .nothing => s.corrupted
  | .storedHeader _ | .stored _ | .finished | .corrupt => s

def bits (b : UInt8) : List Bool := (List.range 8).map fun i => b.toNat.testBit i

/-- The length of a stored block has to be followed by its complement. -/
def storedHeader (s : State) (read : Bytes) : State :=
  if read.length < 4 then { s with mode := .storedHeader read }
  else
    let length := Bytes.ofLittleEndian (read.take 2)
    if length + Bytes.ofLittleEndian (read.drop 2) ≠ 65535 then s.corrupted
    else if length = 0 then s.endBlock
    else { s with mode := .stored length }

def storedByte (s : State) (left : Nat) (b : UInt8) : State :=
  let s := { s with output := s.output.push b }
  if left ≤ 1 then s.endBlock else { s with mode := .stored (left - 1) }

def byte (s : State) (b : UInt8) : State :=
  match s.mode with
  | .storedHeader read => s.storedHeader (read ++ [b])
  | .stored left => s.storedByte left b
  | .finished | .corrupt => s
  | _ => (bits b).foldl bit s

theorem foldl_bit_of_stays {s : State} (stays : ∀ b, s.bit b = s) (bits : List Bool) :
    bits.foldl bit s = s := by
  induction bits with
  | nil => rfl
  | cons b bits ih => rw [List.foldl_cons, stays, ih]

/-! ### The growth of the output -/

theorem size_copyMatch (length distance : Nat) (output : Array UInt8) :
    (copyMatch length distance output).size = output.size + min length maxMatch := by
  have pushed : ∀ n, (Nat.repeat (fun out => out.push (out.getD (out.size - distance) 0)) n
      output).size = output.size + n := by
    intro n
    induction n with
    | zero => rfl
    | succ n ih => simp only [Nat.repeat, Array.size_push, ih]; omega
  exact pushed _

@[simp] theorem output_endBlock (s : State) : s.endBlock.output = s.output := rfl

@[simp] theorem output_beginCompressed (s : State) (codes : Option Codes) :
    (s.beginCompressed codes).output = s.output := by
  cases codes <;> rfl

@[simp] theorem output_withLengths (s : State) (sizes : Sizes) (code : PrefixCode)
    (lengths : List Nat) : (s.withLengths sizes code lengths).output = s.output := by
  unfold withLengths
  split
  · rfl
  · split <;> simp

@[simp] theorem output_lengthSymbol (s : State) (sizes : Sizes) (code : PrefixCode)
    (lengths : List Nat) (symbol : Nat) :
    (s.lengthSymbol sizes code lengths symbol).output = s.output := by
  unfold lengthSymbol
  split
  · simp
  · split
    · split <;> rfl
    · split <;> rfl

theorem size_emitMatch_le (s : State) (codes : Codes) (length distance : Nat) :
    (s.emitMatch codes length distance).output.size ≤ s.output.size + maxMatch := by
  unfold emitMatch
  split
  · simp [corrupted]
  · simp only [beginSymbol, size_copyMatch]
    omega

theorem size_literalSymbol_le (s : State) (codes : Codes) (symbol : Nat) :
    (s.literalSymbol codes symbol).output.size ≤ s.output.size + maxMatch := by
  unfold literalSymbol
  split
  · simp [beginSymbol, maxMatch]
  · split
    · simp
    · split <;> simp [beginDistance, corrupted]

theorem size_distanceSymbol_le (s : State) (codes : Codes) (length symbol : Nat) :
    (s.distanceSymbol codes length symbol).output.size ≤ s.output.size + maxMatch := by
  unfold distanceSymbol
  split
  · exact size_emitMatch_le ..
  · simp
  · simp [corrupted]

theorem size_reachedNumber_le (s : State) (goal : Goal) (value : Nat) :
    (s.reachedNumber goal value).output.size ≤ s.output.size + maxMatch := by
  cases goal with
  | blockHeader =>
    simp only [reachedNumber]
    split
    · simp
    · split
      · simp
      · split <;> simp [corrupted]
  | sizes =>
    simp only [reachedNumber]
    split <;> simp [corrupted]
  | lengthCode sizes read =>
    simp only [reachedNumber]
    split
    · simp
    · split <;> simp [corrupted]
  | repetition => simp [reachedNumber]
  | matchLength => simp [reachedNumber, beginDistance]
  | matchDistance => exact size_emitMatch_le ..

theorem size_bit_le (s : State) (b : Bool) : (s.bit b).output.size ≤ s.output.size + maxMatch := by
  unfold bit
  split
  · dsimp only
    split
    · exact size_reachedNumber_le ..
    · simp
  · split <;> simp [corrupted]
  · split
    · exact size_literalSymbol_le ..
    · simp
    · simp [corrupted]
  · split
    · exact size_distanceSymbol_le ..
    · simp
    · simp [corrupted]
  all_goals simp

theorem size_foldl_bit_le (bs : List Bool) (s : State) :
    (bs.foldl bit s).output.size ≤ s.output.size + bs.length * maxMatch := by
  induction bs generalizing s with
  | nil => simp
  | cons b bs ih =>
    have := ih (s.bit b)
    have := size_bit_le s b
    simp only [List.foldl_cons, List.length_cons, Nat.succ_mul]
    omega

/-- The most output that one byte of input can cause: a match for each of its bits. -/
def maxGrowth : Nat := 8 * maxMatch

theorem size_byte_le (s : State) (b : UInt8) :
    (s.byte b).output.size ≤ s.output.size + maxGrowth := by
  unfold byte
  split
  · unfold storedHeader
    dsimp only
    split
    · simp
    · split
      · simp [corrupted]
      · split <;> simp
  · unfold storedByte
    dsimp only
    split <;> simp [maxGrowth, maxMatch]
  · simp
  · simp
  · exact size_foldl_bit_le (bits b) s

end State

def inflate (bs : Bytes) : State := bs.foldl State.byte {}

theorem inflate_append (a b : Bytes) : inflate (a ++ b) = b.foldl State.byte (inflate a) :=
  List.foldl_append

end WebArchive.Deflate
