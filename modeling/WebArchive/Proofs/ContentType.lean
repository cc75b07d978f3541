import WebArchive.ContentType
import WebArchive.Proofs.Text.Ascii
import WebArchive.Proofs.Text.Trimming

/-!
Media types by their grammar. A `Written` media type is a text together with what each part of it
is; the parts say both how the text is put together and what is read of it. Main fact:
`parse_eq_some_iff`.
-/
namespace WebArchive.ContentType
open Text (isBlank Trimmed)

/-! ### The grammar -/

/-- A visible ASCII character that is no delimiter: RFC 7230, section 3.2.6. -/
def IsTokenChar (c : Char) : Prop :=
  0x21 ≤ c.toNat ∧ c.toNat ≤ 0x7E ∧ c ∉ "\"(),/:;<=>?@[\\]\x7b\x7d".toList

structure Token where
  text : Text
  some : text ≠ []
  chars : ∀ c ∈ text, IsTokenChar c

structure Spaces where
  text : Text
  blank : ∀ c ∈ text, isBlank c

theorem Spaces.not_mem (spaces : Spaces) {c : Char} (black : isBlank c = false) :
    c ∉ spaces.text := by
  intro member
  rw [spaces.blank c member] at black
  cases black

/-- A character of a quoted string, as itself or behind a backslash. -/
inductive QuotedChar where
  | plain (c : Char) (bare : c ≠ '"' ∧ c ≠ '\\')
  | escaped (c : Char)

namespace QuotedChar

def text : QuotedChar → Text
  | plain c _ => [c]
  | escaped c => ['\\', c]

def value : QuotedChar → Char
  | plain c _ => c
  | escaped c => c

end QuotedChar

inductive Value where
  | token (t : Token)
  | quoted (chars : List QuotedChar)

namespace Value

def text : Value → Text
  | token t => t.text
  | quoted chars => '"' :: chars.flatMap QuotedChar.text ++ ['"']

def value : Value → Text
  | token t => t.text
  | quoted chars => chars.map QuotedChar.value

end Value

structure Parameter where
  before : Spaces
  name : Token
  value : Value
  after : Spaces

namespace Parameter

def text (p : Parameter) : Text :=
  ';' :: p.before.text ++ p.name.text ++ '=' :: p.value.text ++ p.after.text

def pair (p : Parameter) : Text × Text := (Text.lower p.name.text, p.value.value)

end Parameter

/-- A media type as it is written; `last` is what follows a last semicolon. -/
structure Written where
  before : Spaces
  type : Token
  subtype : Token
  after : Spaces
  parameters : List Parameter
  last : Option Spaces

namespace Written

def lastText (last : Option Spaces) : Text := last.elim [] fun spaces => ';' :: spaces.text

def text (w : Written) : Text :=
  w.before.text ++ w.type.text ++ '/' :: w.subtype.text ++ w.after.text ++
    w.parameters.flatMap Parameter.text ++ lastText w.last

def contentType (w : Written) : ContentType where
  type := Text.lower w.type.text
  subtype := Text.lower w.subtype.text
  parameters := w.parameters.map Parameter.pair

end Written

/-! ### Tokens -/

instance (c : Char) : Decidable (IsTokenChar c) :=
  inferInstanceAs (Decidable (_ ∧ _ ∧ _))

theorem isTokenChar_of_ascii : ∀ n < 128,
    isTokenChar (Char.ofNat n) ↔ IsTokenChar (Char.ofNat n) := by
  decide +kernel

theorem isTokenChar_iff {c : Char} : isTokenChar c ↔ IsTokenChar c := by
  by_cases ascii : c.toNat < 128
  · have known := isTokenChar_of_ascii c.toNat ascii
    rwa [Char.ofNat_toNat] at known
  · constructor
    · intro h
      exact absurd (Text.ascii_of_class (by decide) h) ascii
    · rintro ⟨_, high, _⟩
      exact absurd (Nat.lt_of_le_of_lt high (by decide)) ascii

theorem isToken_iff {t : Text} : isToken t ↔ t ≠ [] ∧ ∀ c ∈ t, IsTokenChar c := by
  simp [isToken, List.all_eq_true, isTokenChar_iff]

namespace Token
variable (token : Token)

theorem isToken : isToken token.text := isToken_iff.mpr ⟨token.some, token.chars⟩

theorem trimmed : Trimmed token.text := by
  have black : ∀ c ∈ token.text, isBlank c = false := by
    intro c member
    obtain ⟨low, high, -⟩ := token.chars c member
    simp only [isBlank, Text.blankRanges, List.any_cons, List.any_nil, Bool.or_false,
      Bool.or_eq_false_iff, Bool.and_eq_false_iff, decide_eq_false_iff_not]
    omega
  exact ⟨fun c first => black c (List.mem_of_mem_head? first),
    fun c last => black c (List.mem_of_getLast? last)⟩

theorem not_mem {c : Char} (delimiter : c ∈ "\"(),/:;<=>?@[\\]\x7b\x7d".toList) :
    c ∉ token.text := fun member => (token.chars c member).2.2 delimiter

end Token

/-! ### Quoted strings -/

theorem quoted?_text (chars : List QuotedChar) (after : Text) :
    quoted? (chars.flatMap QuotedChar.text ++ '"' :: after) =
      some (chars.map QuotedChar.value, after) := by
  induction chars with
  | nil => rfl
  | cons c chars ih =>
    rw [List.flatMap_cons, List.append_assoc, List.map_cons]
    cases c with
    | plain c bare =>
      have read : quoted? (c :: (chars.flatMap QuotedChar.text ++ '"' :: after)) = _ :=
        quoted?.eq_5 c _ bare.1 (fun _ _ same _ => bare.2 same) (fun same _ => bare.2 same)
      simp [QuotedChar.text, QuotedChar.value, read, ih]
    | escaped c => simp [QuotedChar.text, QuotedChar.value, quoted?, ih]

theorem text_of_quoted? {t value after : Text} (h : quoted? t = some (value, after)) :
    ∃ chars : List QuotedChar,
      t = chars.flatMap QuotedChar.text ++ '"' :: after ∧ chars.map QuotedChar.value = value := by
  fun_induction quoted? t generalizing value after with
  | case1 => simp at h
  | case2 rest =>
    obtain ⟨⟩ := h
    exact ⟨[], rfl, rfl⟩
  | case3 c rest ih =>
    obtain ⟨⟨value, after⟩, found, ⟨⟩⟩ := Option.map_eq_some_iff.mp h
    obtain ⟨chars, rfl, rfl⟩ := ih found
    exact ⟨.escaped c :: chars, rfl, rfl⟩
  | case4 => simp at h
  | case5 c rest quote escape cut ih =>
    obtain ⟨⟨value, after⟩, found, ⟨⟩⟩ := Option.map_eq_some_iff.mp h
    obtain ⟨chars, rfl, rfl⟩ := ih found
    have bare : c ≠ '"' ∧ c ≠ '\\' := by
      refine ⟨quote, fun same => ?_⟩
      cases whole : chars.flatMap QuotedChar.text ++ '"' :: after with
      | nil => exact cut same whole
      | cons d rest => exact escape d rest same whole
    exact ⟨.plain c bare :: chars, rfl, rfl⟩

/-! ### Values -/

/-- What may follow a parameter. -/
def AtSemicolon (t : Text) : Prop := ∀ c, t.head? = some c → c = ';'

theorem AtSemicolon.black {t : Text} (h : AtSemicolon t) :
    ∀ c, t.head? = some c → isBlank c = false := by
  intro c first
  rw [h c first]
  decide

theorem value?_token {t : Text} (unquoted : t.head? ≠ some '"') :
    value? t =
      if isToken (Text.trimEnd (t.takeWhile (· ≠ ';'))) then
        some (Text.trimEnd (t.takeWhile (· ≠ ';')), t.dropWhile (· ≠ ';'))
      else none := by
  rw [value?]
  rintro rest rfl
  exact unquoted rfl

theorem value?_text (value : Value) (after : Spaces) {rest : Text} (next : AtSemicolon rest) :
    ∃ rest', value? (value.text ++ after.text ++ rest) = some (value.value, rest') ∧
      Text.trimStart rest' = rest := by
  cases value with
  | quoted chars =>
    refine ⟨after.text ++ rest, ?_, Text.trimStart_append after.blank next.black⟩
    have whole : (Value.quoted chars).text ++ after.text ++ rest =
        '"' :: (chars.flatMap QuotedChar.text ++ '"' :: (after.text ++ rest)) := by
      simp [Value.text]
    rw [whole]
    exact quoted?_text chars (after.text ++ rest)
  | token t =>
    have clean : ';' ∉ t.text ++ after.text := by
      rw [List.mem_append, not_or]
      exact ⟨t.not_mem (by decide), after.not_mem (by decide)⟩
    have unquoted : (t.text ++ after.text ++ rest).head? ≠ some '"' := by
      obtain ⟨c, more, same⟩ := List.exists_cons_of_ne_nil t.some
      rw [same]
      rintro ⟨⟩
      exact t.not_mem (by decide) (same ▸ List.mem_cons_self)
    obtain ⟨front, behind⟩ := Text.span_append clean next
    refine ⟨rest, ?_, Text.trimStart_of_begun next.black⟩
    rw [Value.text, value?_token unquoted, front, behind,
      Text.trimEnd_append t.trimmed.last after.blank, if_pos t.isToken]
    rfl

theorem text_of_value? {t value rest : Text} (h : value? t = some (value, rest)) :
    ∃ (written : Value) (after : Spaces),
      t = written.text ++ after.text ++ Text.trimStart rest ∧ written.value = value := by
  by_cases quoted : t.head? = some '"'
  · obtain ⟨inner, rfl⟩ := List.head?_eq_some_iff.mp quoted
    obtain ⟨chars, rfl, rfl⟩ := text_of_quoted? h
    obtain ⟨front, blank, same⟩ := Text.eq_append_trimStart rest
    exact ⟨.quoted chars, ⟨front, blank⟩, by simpa [Value.text] using same, rfl⟩
  · rw [value?_token quoted, Option.ite_none_right_eq_some] at h
    obtain ⟨valid, ⟨⟩⟩ := h
    obtain ⟨back, blank, same⟩ := Text.eq_trimEnd_append (t.takeWhile (· ≠ ';'))
    obtain ⟨some, chars⟩ := isToken_iff.mp valid
    have begun := Text.trimStart_of_begun (AtSemicolon.black (Text.head?_dropWhile_ne ';' t))
    refine ⟨.token ⟨_, some, chars⟩, ⟨back, blank⟩, ?_, rfl⟩
    rw [begun, Value.text, ← same, List.takeWhile_append_dropWhile]

/-! ### Parameters -/

theorem atSemicolon_text (written : List Parameter) (last : Option Spaces) :
    AtSemicolon (written.flatMap Parameter.text ++ Written.lastText last) := by
  rintro c first
  cases written with
  | cons p written =>
    obtain ⟨⟩ := first
    rfl
  | nil =>
    cases last with
    | none => cases first
    | some spaces =>
      obtain ⟨⟩ := first
      rfl

theorem parameters?_last (spaces : Spaces) : parameters? (';' :: spaces.text) = some [] := by
  have blank := Text.trimStart_append (t := []) spaces.blank (by simp)
  rw [List.append_nil] at blank
  rw [parameters?, if_pos blank]

theorem parameters?_cons {tail name after value rest : Text}
    (cut : Text.cut '=' (Text.trimStart tail) = some (name, after)) (valid : isToken name)
    (read : value? after = some (value, rest)) :
    parameters? (';' :: tail) =
      (parameters? (Text.trimStart rest)).map ((Text.lower name, value) :: ·) := by
  have some : Text.trimStart tail ≠ [] := by
    intro none
    rw [none] at cut
    cases cut
  rw [parameters?, if_neg some]
  split
  · simp_all
  · rename_i found
    rw [cut] at found
    obtain ⟨⟩ := found
    rw [if_pos valid]
    split
    · simp_all
    · rename_i found
      rw [read] at found
      obtain ⟨⟩ := found
      rfl

theorem parameters?_text (written : List Parameter) (last : Option Spaces) :
    parameters? (written.flatMap Parameter.text ++ Written.lastText last) =
      some (written.map Parameter.pair) := by
  induction written with
  | nil =>
    cases last with
    | none => rw [parameters?.eq_def]; rfl
    | some spaces => exact parameters?_last spaces
  | cons p written ih =>
    have next := atSemicolon_text written last
    obtain ⟨rest, read, behind⟩ := value?_text p.value p.after next
    have black : ∀ c, (p.name.text ++ '=' :: (p.value.text ++ p.after.text ++
        (written.flatMap Parameter.text ++ Written.lastText last))).head? = some c →
        isBlank c = false := by
      obtain ⟨c, more, same⟩ := List.exists_cons_of_ne_nil p.name.some
      have trimmed := p.name.trimmed.first
      rw [same] at trimmed ⊢
      exact trimmed
    have start := Text.trimStart_append p.before.blank black
    have cut := Text.cut_append (p.name.not_mem (c := '=') (by decide))
      (p.value.text ++ p.after.text ++ (written.flatMap Parameter.text ++ Written.lastText last))
    rw [← start] at cut
    have whole : (p :: written).flatMap Parameter.text ++ Written.lastText last =
        ';' :: (p.before.text ++ (p.name.text ++ '=' :: (p.value.text ++ p.after.text ++
          (written.flatMap Parameter.text ++ Written.lastText last)))) := by
      simp [Parameter.text]
    rw [whole, parameters?_cons cut p.name.isToken read, behind, ih]
    rfl

theorem text_of_parameters? {t : Text} {parameters : List (Text × Text)}
    (h : parameters? t = some parameters) :
    ∃ (written : List Parameter) (last : Option Spaces),
      written.flatMap Parameter.text ++ Written.lastText last = t ∧
        written.map Parameter.pair = parameters := by
  fun_induction parameters? t generalizing parameters with
  | case1 tail none =>
    obtain ⟨⟩ := h
    obtain ⟨front, blank, same⟩ := Text.eq_append_trimStart tail
    rw [none, List.append_nil] at same
    exact ⟨[], some ⟨front, blank⟩, congrArg (';' :: ·) same.symm, rfl⟩
  | case4 tail _ name after cut valid value rest read ih =>
    obtain ⟨more, found, rfl⟩ := Option.map_eq_some_iff.mp h
    obtain ⟨written, last, same, rfl⟩ := ih found
    obtain ⟨front, blank, begun⟩ := Text.eq_append_trimStart tail
    obtain ⟨parted, -⟩ := Text.cut_eq_some cut
    obtain ⟨value, space, rfl, rfl⟩ := text_of_value? read
    obtain ⟨full, chars⟩ := isToken_iff.mp valid
    refine ⟨⟨⟨front, blank⟩, ⟨name, full, chars⟩, value, space⟩ :: written, last, ?_, rfl⟩
    rw [begun, parted, ← same]
    simp [Parameter.text]
  | case6 =>
    obtain ⟨⟩ := h
    exact ⟨[], none, rfl, rfl⟩
  | _ => cases h

/-! ### Media types -/

theorem parse?_eq_some {t : Text} {c : ContentType} :
    parse? t = some c ↔ ∃ type subtype parameters,
      Text.cut '/' (Text.trim (t.takeWhile (· ≠ ';'))) = some (type, subtype) ∧
        (isToken type ∧ isToken subtype) ∧
        parameters? (t.dropWhile (· ≠ ';')) = some parameters ∧
        ⟨Text.lower type, Text.lower subtype, parameters⟩ = c := by
  simp [parse?, Option.bind_eq_some_iff]

theorem trimmed_pair (type subtype : Token) : Trimmed (type.text ++ '/' :: subtype.text) := by
  show Trimmed (Text.join '/' [type.text, subtype.text])
  refine Text.trimmed_join ?_ ?_
  · simp [type.trimmed, subtype.trimmed]
  · simp [type.some.symm, subtype.some.symm]

theorem parse?_text (w : Written) : parse? w.text = some w.contentType := by
  have apart : ';' ∉ w.before.text ++ (w.type.text ++ '/' :: w.subtype.text) ++ w.after.text := by
    simp only [List.mem_append, List.mem_cons, not_or]
    exact ⟨⟨w.before.not_mem (by decide), w.type.not_mem (by decide), by decide,
      w.subtype.not_mem (by decide)⟩, w.after.not_mem (by decide)⟩
  obtain ⟨front, behind⟩ := Text.span_append apart (atSemicolon_text w.parameters w.last)
  have whole : w.text = w.before.text ++ (w.type.text ++ '/' :: w.subtype.text) ++ w.after.text ++
      (w.parameters.flatMap Parameter.text ++ Written.lastText w.last) := by
    simp [Written.text]
  rw [whole, parse?_eq_some]
  refine ⟨_, _, _, ?_, ⟨w.type.isToken, w.subtype.isToken⟩, ?_, rfl⟩
  · rw [front, Text.trim_append w.before.blank (trimmed_pair w.type w.subtype) w.after.blank]
    exact Text.cut_append (w.type.not_mem (by decide)) _
  · rw [behind]
    exact parameters?_text w.parameters w.last

theorem text_of_parse? {t : Text} {c : ContentType} (h : parse? t = some c) :
    ∃ w : Written, w.text = t ∧ w.contentType = c := by
  obtain ⟨type, subtype, parameters, cut, ⟨valid, valid'⟩, read, rfl⟩ := parse?_eq_some.mp h
  obtain ⟨front, back, blank, blank', same⟩ := Text.eq_append_trim (t.takeWhile (· ≠ ';'))
  obtain ⟨parted, -⟩ := Text.cut_eq_some cut
  obtain ⟨written, last, rest, rfl⟩ := text_of_parameters? read
  obtain ⟨full, chars⟩ := isToken_iff.mp valid
  obtain ⟨full', chars'⟩ := isToken_iff.mp valid'
  refine ⟨⟨⟨front, blank⟩, ⟨type, full, chars⟩, ⟨subtype, full', chars'⟩, ⟨back, blank'⟩, written,
    last⟩, ?_, rfl⟩
  have whole := List.takeWhile_append_dropWhile (p := (· ≠ ';')) (l := t)
  rw [← rest, same, parted] at whole
  rw [← whole]
  simp [Written.text]

/-- What is read is just what the grammar gives, and each part is what the grammar says. -/
theorem parse_eq_some_iff (t : Text) (c : ContentType) :
    parse? t = some c ↔ ∃ w : Written, w.text = t ∧ w.contentType = c := by
  constructor
  · exact text_of_parse?
  · rintro ⟨w, rfl, rfl⟩
    exact parse?_text w

end WebArchive.ContentType
