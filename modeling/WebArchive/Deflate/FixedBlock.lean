import WebArchive.Deflate.Bits
import WebArchive.Deflate.Token

/-!
Tokens in one block, with the codes that need no announcement. Main fact: `inflate_fixedBlock`,
inflating the block gives what its tokens stand for.
-/
namespace WebArchive.Deflate

/-- The code of a byte, of the end of the block (256) or of a length. -/
def literalBits (symbol : Nat) : List Bool :=
  if symbol < 144 then highFirst 8 (48 + symbol)
  else if symbol < 256 then highFirst 9 (256 + symbol)
  else if symbol < 280 then highFirst 7 (symbol - 256)
  else highFirst 8 (symbol - 88)

def distanceBits (symbol : Nat) : List Bool := highFirst 5 symbol

/-- The last entry of a table that a number can be written with, and its place. -/
def written? (table : List (Nat × Nat)) (n : Nat) : Option ((Nat × Nat) × Nat) :=
  table.zipIdx.reverse.find? fun ((base, extra), _) => base ≤ n && n < base + 1 <<< extra

/-- The code of an entry and what the number exceeds it by. -/
def numberBits (table : List (Nat × Nat)) (code : Nat → List Bool) (n : Nat) : List Bool :=
  match written? table n with
  | some ((base, extra), place) => code place ++ lowFirst extra (n - base)
  | none => []

def Token.bits : Token → List Bool
  | .literal b => literalBits b.toNat
  | .repeated length distance =>
    numberBits State.lengthBases (fun place => literalBits (257 + place)) length ++
      numberBits State.distanceBases distanceBits distance

def fixedBlock (tokens : List Token) : List Bool :=
  [true, true, false] ++ tokens.flatMap Token.bits ++ literalBits 256

/-! ### Reading the bits -/

/-- The symbol of a code that is made of all the bits. -/
def PrefixCode.symbol? (c : PrefixCode) (w : Walk) : List Bool → Option Nat
  | [] => none
  | b :: bs =>
    match c.advance w b with
    | .symbol s => if bs.isEmpty then some s else none
    | .inside w => c.symbol? w bs
    | .nothing => none

/-- Every symbol is read from its fixed code. -/
structure Codes.AreFixed (codes : Codes) : Prop where
  literal : ∀ s < 288, codes.literal.symbol? codes.literal.begin (literalBits s) = some s
  distance : ∀ s < 32, codes.distance.symbol? codes.distance.begin (distanceBits s) = some s

theorem areFixed_fixedCodes : ∃ codes, State.fixedCodes = some codes ∧ codes.AreFixed := by
  have all : State.fixedCodes.any (fun codes =>
      ((List.range 288).all fun s =>
        codes.literal.symbol? codes.literal.begin (literalBits s) == some s) &&
      (List.range 32).all fun s =>
        codes.distance.symbol? codes.distance.begin (distanceBits s) == some s) = true := by
    decide +kernel
  rcases known : State.fixedCodes with _ | codes
  · simp [known] at all
  · simp only [known, Option.any_some, Bool.and_eq_true, List.all_eq_true, List.mem_range,
      beq_iff_eq] at all
    exact ⟨codes, rfl, all.1, all.2⟩

theorem exists_written {table : List (Nat × Nat)} {n : Nat}
    (known : ∃ e ∈ table, e.1 ≤ n ∧ n < e.1 + 1 <<< e.2) :
    ∃ base extra place, written? table n = some ((base, extra), place) ∧
      table[place]? = some (base, extra) ∧ base ≤ n ∧ n - base < 1 <<< extra := by
  obtain ⟨e, mem, low, high⟩ := known
  obtain ⟨k, inside, rfl⟩ := List.getElem_of_mem mem
  have some : (written? table n).isSome := by
    rw [written?, List.find?_isSome]
    refine ⟨(table[k], k), ?_, by simp [low, high]⟩
    rw [List.mem_reverse, List.mem_zipIdx_iff_getElem?]
    exact List.getElem?_eq_getElem inside
  obtain ⟨⟨⟨base, extra⟩, place⟩, found⟩ := Option.isSome_iff_exists.mp some
  have fits := List.find?_some found
  have mem := List.mem_of_find?_eq_some found
  rw [List.mem_reverse, List.mem_zipIdx_iff_getElem?] at mem
  simp only [Bool.and_eq_true, decide_eq_true_eq] at fits
  exact ⟨base, extra, place, found, mem, fits.1, by omega⟩

theorem exists_lengthBase {n : Nat} (low : 3 ≤ n) (high : n ≤ State.maxMatch) :
    ∃ e ∈ State.lengthBases, e.1 ≤ n ∧ n < e.1 + 1 <<< e.2 := by
  simp [State.maxMatch] at high
  simp [State.lengthBases]
  omega

theorem exists_distanceBase {n : Nat} (low : 0 < n) (high : n ≤ window) :
    ∃ e ∈ State.distanceBases, e.1 ≤ n ∧ n < e.1 + 1 <<< e.2 := by
  simp [window] at high
  simp [State.distanceBases]
  omega

namespace State

theorem foldl_bit_literalCode {codes : Codes} {symbol : Nat} {bs : List Bool} {w : Walk}
    (h : codes.literal.symbol? w bs = some symbol) (s : State) :
    bs.foldl bit { s with mode := .literalSymbol codes w } = s.literalSymbol codes symbol := by
  induction bs generalizing w with
  | nil => simp [PrefixCode.symbol?] at h
  | cons b bs ih =>
    unfold PrefixCode.symbol? at h
    simp only [List.foldl_cons, bit]
    cases reached : codes.literal.advance w b with
    | symbol t =>
      cases bs with
      | nil =>
        simp only [reached, List.isEmpty_nil, if_true, Option.some.injEq] at h
        subst h
        simp only [List.foldl_nil, literalSymbol, beginSymbol, endBlock, beginDistance, corrupted]
      | cons => simp [reached] at h
    | inside w' => simp only [reached] at h; exact ih h
    | nothing => simp [reached] at h

theorem foldl_bit_distanceCode {codes : Codes} {length symbol : Nat} {bs : List Bool} {w : Walk}
    (h : codes.distance.symbol? w bs = some symbol) (s : State) :
    bs.foldl bit { s with mode := .distanceSymbol codes length w } =
      s.distanceSymbol codes length symbol := by
  induction bs generalizing w with
  | nil => simp [PrefixCode.symbol?] at h
  | cons b bs ih =>
    unfold PrefixCode.symbol? at h
    simp only [List.foldl_cons, bit]
    cases reached : codes.distance.advance w b with
    | symbol t =>
      cases bs with
      | nil =>
        simp only [reached, List.isEmpty_nil, if_true, Option.some.injEq] at h
        subst h
        simp only [List.foldl_nil, distanceSymbol, emitMatch, beginSymbol, corrupted]
      | cons => simp [reached] at h
    | inside w' => simp only [reached] at h; exact ih h
    | nothing => simp [reached] at h

variable {codes : Codes}

theorem foldl_bit_length (fixed : codes.AreFixed) (s : State) {length : Nat} (low : 3 ≤ length)
    (high : length ≤ maxMatch) :
    (numberBits lengthBases (fun place => literalBits (257 + place)) length).foldl bit
      (s.beginSymbol codes) = s.beginDistance codes length := by
  obtain ⟨base, extra, place, found, known, least, few⟩ :=
    exists_written (exists_lengthBase low high)
  have inside : place < 29 := (List.getElem?_eq_some_iff.mp known).1
  rw [numberBits, found]
  dsimp only
  rw [List.foldl_append, beginSymbol,
    foldl_bit_literalCode (fixed.literal (257 + place) (by omega)), literalSymbol,
    if_neg (by omega), if_neg (by omega), Nat.add_sub_cancel_left, known]
  cases extra with
  | zero =>
    have : length = base := by simp at few; omega
    simp [lowFirst, this]
  | succ n =>
    simp only
    rw [foldl_bit_lowFirst _ _ _ _ _ _ (by omega) few, reachedNumber]
    congr 1
    omega

theorem foldl_bit_distance (fixed : codes.AreFixed) (s : State) {length distance : Nat}
    (low : 0 < distance) (high : distance ≤ window) (inside : distance ≤ s.output.size) :
    (numberBits distanceBases distanceBits distance).foldl bit (s.beginDistance codes length) =
      { s with output := copyMatch length distance s.output }.beginSymbol codes := by
  obtain ⟨base, extra, place, found, known, least, few⟩ :=
    exists_written (exists_distanceBase low high)
  have bound : place < 30 := (List.getElem?_eq_some_iff.mp known).1
  rw [numberBits, found]
  dsimp only
  rw [List.foldl_append, beginDistance, foldl_bit_distanceCode (fixed.distance place (by omega)),
    distanceSymbol, known]
  cases extra with
  | zero =>
    have : distance = base := by simp at few; omega
    subst this
    simp [lowFirst, emitMatch, Nat.not_lt.mpr inside]
  | succ n =>
    simp only
    rw [foldl_bit_lowFirst _ _ _ _ _ _ (by omega) few, reachedNumber, emitMatch]
    have : base + (0 + (distance - base) <<< 0) = distance := by omega
    rw [this, if_neg (by omega)]

theorem foldl_bit_token (fixed : codes.AreFixed) (s : State) {t : Token} {output : Array UInt8}
    (h : t.addTo? s.output = some output) :
    t.bits.foldl bit (s.beginSymbol codes) = { s with output }.beginSymbol codes := by
  cases t with
  | literal b =>
    have small := b.toNat_lt
    simp only [Token.addTo?, Option.some.injEq] at h
    rw [Token.bits, beginSymbol, foldl_bit_literalCode (fixed.literal b.toNat (by omega)),
      literalSymbol, if_pos small, UInt8.ofNat_toNat, h]
  | repeated length distance =>
    simp only [Token.addTo?, Option.ite_none_right_eq_some, Option.some.injEq] at h
    obtain ⟨⟨low, high, some, near, inside⟩, rfl⟩ := h
    rw [Token.bits, List.foldl_append, foldl_bit_length fixed s low high,
      foldl_bit_distance fixed s some near inside]

theorem foldl_bit_tokens (fixed : codes.AreFixed) (s : State) {ts : List Token}
    {output : Array UInt8} (h : Token.expand? ts s.output = some output) :
    (ts.flatMap Token.bits).foldl bit (s.beginSymbol codes) =
      { s with output }.beginSymbol codes := by
  induction ts generalizing s with
  | nil =>
    simp only [Token.expand?, List.foldlM_nil, Option.pure_def, Option.some.injEq] at h
    rw [← h]
    rfl
  | cons t ts ih =>
    rw [Token.expand?, List.foldlM_cons] at h
    obtain ⟨middle, first, rest⟩ := Option.bind_eq_some_iff.mp h
    rw [List.flatMap_cons, List.foldl_append, foldl_bit_token fixed s first]
    exact ih { s with output := middle } rest

end State

theorem foldl_bit_blockType {codes : Codes} (known : State.fixedCodes = some codes) :
    [true, true, false].foldl State.bit {} = ({ final := true } : State).beginSymbol codes := by
  simp [State.bit, State.reachedNumber, State.beginCompressed, known, State.beginSymbol]

theorem foldl_bit_fixedBlock {ts : List Token} {output : Array UInt8}
    (h : Token.expand? ts #[] = some output) :
    (fixedBlock ts).foldl State.bit {} = { mode := .finished, final := true, output } := by
  obtain ⟨codes, known, fixed⟩ := areFixed_fixedCodes
  rw [fixedBlock, List.foldl_append, List.foldl_append, foldl_bit_blockType known,
    State.foldl_bit_tokens fixed { final := true } h, State.beginSymbol,
    State.foldl_bit_literalCode (fixed.literal 256 (by omega))]
  rfl

theorem inflate_fixedBlock {ts : List Token} {output : Array UInt8}
    (h : Token.expand? ts #[] = some output) :
    inflate (pack #[] (fixedBlock ts)).toList =
      { mode := .finished, final := true, output } := by
  rw [inflate, State.foldl_byte_pack _ _ _ (by simp [foldl_bit_fixedBlock h])]
  exact foldl_bit_fixedBlock h

end WebArchive.Deflate
