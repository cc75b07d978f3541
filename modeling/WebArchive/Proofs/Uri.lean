import WebArchive.Proofs.Text.Ascii
import WebArchive.Proofs.Text.Trimming
import WebArchive.Uri

/-!
Which texts are references, and what their scheme is. A reference is also checked in place, by the
indices of its bytes; none of them is out of range. Main fact: `parse_exact`.
-/
namespace WebArchive.Uri

/-! ### The language -/

/-- RFC 3986, section 2.3. -/
def Unreserved (c : Char) : Prop := c.isAlphanum ∨ c ∈ ['-', '.', '_', '~']

/-- RFC 3986, section 2.2: what parts a reference, and what parts a part of it. -/
def Reserved (c : Char) : Prop :=
  c ∈ [':', '/', '?', '#', '[', ']', '@'] ∨
    c ∈ ['!', '$', '&', '\x27', '(', ')', '*', '+', ',', ';', '=']

inductive Piece : Text → Prop where
  | plain {c : Char} (allowed : Unreserved c ∨ Reserved c) : Piece [c]
  | escape {high low : Char} (first : Address.isHexDigit high) (second : Address.isHexDigit low) :
      Piece ['%', high, low]

def IsReference (t : Text) : Prop :=
  ∃ pieces : List Text, pieces ≠ [] ∧ (∀ piece ∈ pieces, Piece piece) ∧ pieces.flatten = t

/-- `scheme` is what stands in front of the first colon, and it is a letter followed by letters,
digits, plus, minus and points. -/
def HasScheme (t scheme : Text) : Prop :=
  (∃ rest, t = scheme ++ ':' :: rest) ∧ ':' ∉ scheme ∧
    ∃ first more, scheme = first :: more ∧ first.isAlpha ∧
      ∀ c ∈ more, c.isAlpha ∨ c.isDigit ∨ c ∈ ['+', '-', '.']

theorem isPlain_iff {c : Char} : isPlain c ↔ Unreserved c ∨ Reserved c := by
  have all : "-._~:/?#[]@!$&'()*+,;=".toList =
      ['-', '.', '_', '~'] ++ [':', '/', '?', '#', '[', ']', '@'] ++
        ['!', '$', '&', '\x27', '(', ')', '*', '+', ',', ';', '='] := by decide
  simp only [isPlain, all, List.contains_eq_mem, Bool.or_eq_true, decide_eq_true_eq,
    List.mem_append, Unreserved, Reserved, or_assoc]

theorem isPlain_percent : isPlain '%' = false := by decide

theorem isReference_cons {c : Char} (other : c ≠ '%') (rest : Text) :
    isReference (c :: rest) = (isPlain c && isReference rest) := by
  rw [isReference]
  rintro _ _ _ rfl
  exact absurd rfl other

/-- A text made of the pieces: the first piece is read in one step. -/
theorem isReference_flatten {pieces : List Text} (all : ∀ piece ∈ pieces, Piece piece) :
    isReference pieces.flatten := by
  induction pieces with
  | nil => rfl
  | cons piece pieces ih =>
    obtain ⟨first, rest⟩ := List.forall_mem_cons.mp all
    rw [List.flatten_cons]
    cases first with
    | @plain c allowed =>
      have plain := isPlain_iff.mpr allowed
      have other : c ≠ '%' := by
        rintro rfl
        exact absurd plain (by decide)
      rw [List.singleton_append, isReference_cons other, plain, ih rest, Bool.and_self]
    | escape first second => simp [isReference, first, second, ih rest]

theorem pieces_of_isReference {t : Text} (h : isReference t) :
    ∃ pieces : List Text, (∀ piece ∈ pieces, Piece piece) ∧ pieces.flatten = t := by
  fun_induction isReference t with
  | case1 => exact ⟨[], by simp, rfl⟩
  | case2 high low rest ih =>
    simp only [Bool.and_eq_true] at h
    obtain ⟨pieces, all, rfl⟩ := ih h.2
    exact ⟨['%', high, low] :: pieces, List.forall_mem_cons.mpr ⟨.escape h.1.1 h.1.2, all⟩, rfl⟩
  | case3 c rest _ ih =>
    simp only [Bool.and_eq_true] at h
    obtain ⟨pieces, all, rfl⟩ := ih h.2
    exact ⟨[c] :: pieces, List.forall_mem_cons.mpr ⟨.plain (isPlain_iff.mp h.1), all⟩, rfl⟩

theorem isReference_iff {t : Text} : t ≠ [] ∧ isReference t ↔ IsReference t := by
  constructor
  · rintro ⟨some, h⟩
    obtain ⟨pieces, all, same⟩ := pieces_of_isReference h
    exact ⟨pieces, fun none => some (by rw [← same, none, List.flatten_nil]), all, same⟩
  · rintro ⟨pieces, some, all, rfl⟩
    refine ⟨fun none => ?_, isReference_flatten all⟩
    obtain ⟨piece, rest, rfl⟩ := List.exists_cons_of_ne_nil some
    have empty : piece = [] := (List.append_eq_nil_iff.mp (List.flatten_cons ▸ none)).1
    cases all piece List.mem_cons_self <;> exact List.cons_ne_nil _ _ empty

theorem isScheme_iff {s : Text} : isScheme s ↔ ∃ first more, s = first :: more ∧ first.isAlpha ∧
    ∀ c ∈ more, c.isAlpha ∨ c.isDigit ∨ c ∈ ['+', '-', '.'] := by
  cases s with
  | nil => simp [isScheme]
  | cons first more =>
    constructor
    · intro h
      exact ⟨first, more, rfl, by simpa [isScheme, Char.isAlphanum, or_assoc] using h⟩
    · rintro ⟨_, _, ⟨⟩, h⟩
      simpa [isScheme, Char.isAlphanum, or_assoc] using h

theorem schemeOf_eq_some {t s : Text} : schemeOf t = some s ↔ HasScheme t s := by
  simp only [schemeOf, Option.bind_eq_some_iff, Option.ite_none_right_eq_some, Option.some.injEq]
  constructor
  · rintro ⟨⟨before, after⟩, found, valid, rfl⟩
    obtain ⟨same, absent⟩ := Text.cut_eq_some found
    exact ⟨⟨after, same⟩, absent, isScheme_iff.mp valid⟩
  · rintro ⟨⟨rest, rfl⟩, absent, valid⟩
    exact ⟨(s, rest), Text.cut_append absent rest, isScheme_iff.mpr valid, rfl⟩

/-! ### Characters and their bytes -/

theorem ascii_of_isHexDigit {c : Char} (h : Address.isHexDigit c) : c.toNat < 128 := by
  simp only [Address.isHexDigit, Char.isDigit, Bool.or_eq_true, Bool.and_eq_true,
    decide_eq_true_eq, ge_iff_le, Char.le_def, UInt32.le_iff_toNat_le] at h
  have lower : 'f'.val.toNat = 102 := rfl
  have digit : '9'.val.toNat = 57 := rfl
  have upper : 'F'.val.toNat = 70 := rfl
  show c.val.toNat < 128
  omega

theorem ascii_of_isPlain {c : Char} (h : isPlain c) : c.toNat < 128 :=
  Text.ascii_of_class (by decide) h

theorem ascii_of_isReference {t : Text} (h : isReference t) : ∀ c ∈ t, c.toNat < 128 := by
  fun_induction isReference t with
  | case1 => simp
  | case2 high low rest ih =>
    simp only [Bool.and_eq_true] at h
    have percent : '%'.toNat < 128 := by decide
    simpa only [List.forall_mem_cons] using
      ⟨percent, ascii_of_isHexDigit h.1.1, ascii_of_isHexDigit h.1.2, ih h.2⟩
  | case3 c rest _ ih =>
    simp only [Bool.and_eq_true] at h
    exact List.forall_mem_cons.mpr ⟨ascii_of_isPlain h.1, ih h.2⟩

/-- The bytes of a text are read as the text itself. -/
theorem isReference_latin1 (t : Text) :
    isReference (Text.latin1 (Text.utf8 t)) = isReference t := by
  rw [Bool.eq_iff_iff]
  constructor
  · intro h
    have bytes : ∀ b ∈ Text.utf8 t, b.toNat < 128 := by
      intro b member
      rw [← Text.toNat_ofNat_byte]
      exact ascii_of_isReference h _ (List.mem_map_of_mem member)
    rwa [Text.latin1_utf8 (Text.ascii_of_utf8 bytes)] at h
  · intro h
    rwa [Text.latin1_utf8 (ascii_of_isReference h)]

/-! ### In place

The same check and the same cut on a text as it is stored, where a byte is looked at by its index
and a front is cut off at one.
-/

/-- An index at which there is no byte, or at which no character begins or ends. -/
structure OutOfRange where
  index : Nat

def byteAt (bs : Bytes) (i : Nat) : Except OutOfRange UInt8 :=
  match bs[i]? with
  | some b => .ok b
  | none => .error ⟨i⟩

/-- The character of an ASCII byte; those of other bytes stand in no reference. -/
abbrev charOf (b : UInt8) : Char := Char.ofNat b.toNat

def charAt (bs : Bytes) (i : Nat) : Except OutOfRange Char := (byteAt bs i).map charOf

/-- The bytes from the index `i` on are looked at in turn, those of an escape together. -/
def scan (bs : Bytes) (i : Nat) : Except OutOfRange Bool :=
  if i < bs.length then do
    let c ← charAt bs i
    if c = '%' then
      if bs.length ≤ i + 2 then return false
      else
        let high ← charAt bs (i + 1)
        if Address.isHexDigit high then
          let low ← charAt bs (i + 2)
          if Address.isHexDigit low then scan bs (i + 3) else return false
        else return false
    else if isPlain c then scan bs (i + 1)
    else return false
  else return true
termination_by bs.length - i

/-- The byte index at which a character stands first. -/
def indexOf (sep : Char) : Text → Option Nat
  | [] => none
  | c :: rest => if c = sep then some 0 else (indexOf sep rest).map (c.utf8Size + ·)

/-- The text in front of a byte index. -/
def front (t : Text) (index : Nat) : Except OutOfRange Text :=
  match t with
  | [] => if index = 0 then .ok [] else .error ⟨index⟩
  | c :: rest =>
    if index = 0 then .ok []
    else if index < c.utf8Size then .error ⟨index⟩
    else (front rest (index - c.utf8Size)).map (c :: ·)

def schemeLength (t : Text) : Except OutOfRange (Option Nat) :=
  match indexOf ':' t with
  | none => .ok none
  | some colon => do
    if isScheme (← front t colon) then return some colon
    else return none

/-- A reference whose scheme is kept as the number of its bytes, and then taken off the text. -/
def inPlace (t : Text) : Except OutOfRange (Option Uri) :=
  if t = [] then .ok none
  else do
    if ← scan (Text.utf8 t) 0 then
      match ← schemeLength t with
      | none => return some ⟨t, none⟩
      | some length => return some ⟨t, ← front t length⟩
    else return none

section Scan
variable {bs after : Bytes} {i : Nat} {b : UInt8}

theorem charAt_of_drop (rest : bs.drop i = b :: after) : charAt bs i = .ok (charOf b) := by
  have found : bs[i]? = some b := by
    rw [← List.head?_drop, rest]
    rfl
  rw [charAt, byteAt, found]
  rfl

theorem drop_succ (rest : bs.drop i = b :: after) : bs.drop (i + 1) = after := by
  rw [← List.drop_drop, rest]
  rfl

theorem length_of_drop (rest : bs.drop i = b :: after) : bs.length = i + after.length + 1 := by
  have length := congrArg List.length rest
  rw [List.length_drop, List.length_cons] at length
  omega

theorem scan_end (rest : bs.drop i = []) : scan bs i = .ok true := by
  rw [scan, if_neg (Nat.not_lt.mpr (List.drop_eq_nil_iff.mp rest))]
  rfl

theorem scan_plain (rest : bs.drop i = b :: after) (other : charOf b ≠ '%') :
    scan bs i = if isPlain (charOf b) then scan bs (i + 1) else .ok false := by
  rw [scan, if_pos (by have := length_of_drop rest; omega), charAt_of_drop rest]
  show (if charOf b = '%' then _ else _) = _
  rw [if_neg other]
  rfl

theorem scan_escape {high low : UInt8} (rest : bs.drop i = b :: high :: low :: after)
    (escape : charOf b = '%') :
    scan bs i = if Address.isHexDigit (charOf high) && Address.isHexDigit (charOf low) then
      scan bs (i + 3) else .ok false := by
  have length : bs.length = i + (after.length + 2) + 1 := length_of_drop rest
  have first := charAt_of_drop (drop_succ rest)
  have second := charAt_of_drop (drop_succ (drop_succ rest))
  rw [scan, if_pos (by omega), charAt_of_drop rest]
  show (if charOf b = '%' then _ else _) = _
  rw [if_pos escape, if_neg (by omega), first]
  show (if Address.isHexDigit (charOf high) then _ else _) = _
  cases valid : Address.isHexDigit (charOf high)
  · rfl
  · rw [if_pos rfl, second, Bool.true_and]
    rfl

theorem scan_escape_cut (rest : bs.drop i = b :: after) (escape : charOf b = '%')
    (short : after.length < 2) : scan bs i = .ok false := by
  have length := length_of_drop rest
  rw [scan, if_pos (by omega), charAt_of_drop rest]
  show (if charOf b = '%' then _ else _) = _
  rw [if_pos escape, if_pos (by omega)]
  rfl

end Scan

/-- No byte is looked at but those that are there, and what is told of them is what is told of
their characters. -/
theorem scan_eq (bs : Bytes) (i : Nat) :
    scan bs i = .ok (isReference (Text.latin1 (bs.drop i))) := by
  -- On what is left of the bytes, since an escape is passed in one step.
  induction left : bs.length - i using Nat.strongRecOn generalizing i with
  | ind n ih =>
  subst left
  cases rest : bs.drop i with
  | nil => rw [scan_end rest]; rfl
  | cons b after =>
    have length := length_of_drop rest
    by_cases escape : charOf b = '%'
    · rcases after with _ | ⟨high, _ | ⟨low, after⟩⟩
      · simp [scan_escape_cut rest, Text.latin1, escape, isReference, isPlain_percent]
      · simp [scan_escape_cut rest, Text.latin1, escape, isReference, isPlain_percent]
      · have further := ih _ (by omega) (i + 3) rfl
        rw [drop_succ (drop_succ (drop_succ rest))] at further
        rw [scan_escape rest escape, further]
        simp only [Text.latin1, List.map_cons, escape, isReference]
        cases Address.isHexDigit (charOf high) && Address.isHexDigit (charOf low) <;> rfl
    · have further := ih _ (by omega) (i + 1) rfl
      rw [drop_succ rest] at further
      rw [scan_plain rest escape, further]
      show _ = Except.ok (isReference (charOf b :: Text.latin1 after))
      rw [isReference_cons escape]
      cases isPlain (charOf b) <;> rfl

theorem indexOf_eq (sep : Char) (t : Text) :
    indexOf sep t = (Text.cut sep t).map fun (before, _) => (Text.utf8 before).length := by
  induction t with
  | nil => rfl
  | cons c rest ih =>
    rw [indexOf, Text.cut, ih]
    by_cases same : c = sep
    · simp [same, Text.utf8]
    · simp [same, Function.comp_def, Text.length_utf8_cons]

theorem front_append (before after : Text) :
    front (before ++ after) (Text.utf8 before).length = .ok before := by
  induction before with
  | nil => cases after <;> rfl
  | cons c rest ih =>
    have positive : 0 < c.utf8Size := c.utf8Size_pos
    rw [List.cons_append, front, Text.length_utf8_cons, if_neg (by omega), if_neg (by omega),
      Nat.add_sub_cancel_left, ih]
    rfl

theorem schemeLength_eq (t : Text) :
    schemeLength t = .ok ((schemeOf t).map fun scheme => (Text.utf8 scheme).length) := by
  rw [schemeLength, indexOf_eq, schemeOf]
  cases found : Text.cut ':' t with
  | none => rfl
  | some parts =>
    obtain ⟨before, after⟩ := parts
    obtain ⟨rfl, -⟩ := Text.cut_eq_some found
    rw [Option.map_some, Option.bind_some]
    show (front (before ++ ':' :: after) _ >>= _) = _
    rw [front_append]
    cases valid : isScheme before <;> simp [valid, bind, Except.bind, pure, Except.pure]

theorem inPlace_eq (t : Text) : inPlace t = .ok (parse? t) := by
  rw [inPlace, parse?]
  by_cases none : t = []
  · rw [if_pos none, if_neg fun some => some.1 none]
  · have whole : scan (Text.utf8 t) 0 = .ok (isReference t) := by
      rw [← isReference_latin1]
      exact scan_eq _ 0
    rw [if_neg none, whole, schemeLength_eq]
    cases valid : isReference t
    · rw [if_neg fun some => absurd some.2 (by decide)]
      rfl
    · rw [if_pos ⟨none, rfl⟩]
      cases found : schemeOf t with
      | none => rfl
      | some scheme =>
        obtain ⟨⟨rest, same⟩, -⟩ := schemeOf_eq_some.mp found
        have slice : front t (Text.utf8 scheme).length = .ok scheme :=
          same ▸ front_append scheme (':' :: rest)
        show (front t (Text.utf8 scheme).length >>= _) = _
        rw [slice]
        rfl

/-- A reference is a text of allowed characters and whole escapes, its scheme is found, and no
byte is looked for where there is none. -/
theorem parse_exact (t : Text) :
    ((parse? t).isSome ↔ IsReference t) ∧
      (∀ u, parse? t = some u →
        u.text = t ∧ ∀ scheme, u.scheme = some scheme ↔ HasScheme t scheme) ∧
      inPlace t = .ok (parse? t) := by
  refine ⟨?_, ?_, inPlace_eq t⟩
  · rw [← isReference_iff, parse?, Option.isSome_ite]
  · intro u found
    rw [parse?, Option.ite_none_right_eq_some] at found
    obtain ⟨-, ⟨⟩⟩ := found
    exact ⟨rfl, fun _ => schemeOf_eq_some⟩

theorem parse_exact_http :
    parse? "http://x.org/a%20b?q=1#frag".toList =
        some ⟨"http://x.org/a%20b?q=1#frag".toList, some "http".toList⟩ ∧
      HasScheme "http://x.org/a%20b?q=1#frag".toList "http".toList := by
  have read : parse? "http://x.org/a%20b?q=1#frag".toList =
      some ⟨"http://x.org/a%20b?q=1#frag".toList, some "http".toList⟩ := by decide
  exact ⟨read, (((parse_exact _).2.1 _ read).2 _).mp rfl⟩

end WebArchive.Uri
