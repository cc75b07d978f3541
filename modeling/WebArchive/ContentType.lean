import WebArchive.Text.Blank

/-!
Media types such as `text/html; charset=utf-8`: a type, a subtype and parameters, whose values
are tokens or quoted strings.
-/
namespace WebArchive

/-- Type, subtype and parameter names are in small letters; values are as written, without the
quotes and the escapes of quoted strings. -/
structure ContentType where
  type : Text
  subtype : Text
  parameters : List (Text × Text)
  deriving DecidableEq

namespace ContentType

def isTokenChar (c : Char) : Bool :=
  c.isAlphanum || "!#$%&'*+-.^_\x60|~".toList.contains c

def isToken (t : Text) : Bool := !t.isEmpty && t.all isTokenChar

/-- The value of a quoted string after its opening quote, and what follows its closing quote. -/
def quoted? : Text → Option (Text × Text)
  | [] => none
  | '"' :: rest => some ([], rest)
  | '\\' :: c :: rest => (quoted? rest).map fun (value, after) => (c :: value, after)
  | '\\' :: [] => none
  | c :: rest => (quoted? rest).map fun (value, after) => (c :: value, after)

theorem length_lt_of_quoted? {t value after : Text} (h : quoted? t = some (value, after)) :
    after.length < t.length := by
  fun_induction quoted? t generalizing value after with
  | case1 => simp at h
  | case2 rest => simp at h; simp [← h.2]
  | case3 c rest ih =>
    obtain ⟨⟨v, a⟩, found, same⟩ := Option.map_eq_some_iff.mp h
    simp only [Prod.mk.injEq] at same
    have := ih found
    simp [← same.2]; omega
  | case4 => simp at h
  | case5 c rest _ _ _ ih =>
    obtain ⟨⟨v, a⟩, found, same⟩ := Option.map_eq_some_iff.mp h
    simp only [Prod.mk.injEq] at same
    have := ih found
    simp [← same.2]; omega

/-- A parameter's value, a quoted string or a token up to the next semicolon, and the rest. -/
def value? : Text → Option (Text × Text)
  | '"' :: rest => quoted? rest
  | t =>
    if isToken (Text.trimEnd (t.takeWhile (· ≠ ';'))) then
      some (Text.trimEnd (t.takeWhile (· ≠ ';')), t.dropWhile (· ≠ ';'))
    else none

theorem length_le_of_value? {t value after : Text} (h : value? t = some (value, after)) :
    after.length ≤ t.length := by
  unfold value? at h
  split at h
  · have := length_lt_of_quoted? h
    simp; omega
  · split at h
    · simp only [Option.some.injEq, Prod.mk.injEq] at h
      rw [← h.2]
      exact (List.dropWhile_suffix _).length_le
    · simp at h

theorem length_le_trimStart (t : Text) : (Text.trimStart t).length ≤ t.length :=
  (List.dropWhile_suffix _).length_le

theorem length_lt_of_cut {sep : Char} {t before after : Text}
    (h : Text.cut sep t = some (before, after)) : after.length < t.length := by
  rw [(Text.cut_eq_some h).1]
  simp; omega

/-- The parameters of a text that is empty or begins with a semicolon; the last semicolon may
have nothing after it. -/
def parameters? (t : Text) : Option (List (Text × Text)) :=
  match t with
  | ';' :: tail =>
    if Text.trimStart tail = [] then some []
    else
      match _cut : Text.cut '=' (Text.trimStart tail) with
      | none => none
      | some (name, after) =>
        if isToken name then
          match _read : value? after with
          | none => none
          | some (value, rest) =>
            (parameters? (Text.trimStart rest)).map ((Text.lower name, value) :: ·)
        else none
  | [] => some []
  | _ => none
termination_by t.length
decreasing_by
  have h1 := length_le_trimStart tail
  have h2 := length_lt_of_cut _cut
  have h3 := length_le_of_value? _read
  have h4 := length_le_trimStart rest
  simp only [List.length_cons]
  omega

def parse? (t : Text) : Option ContentType := do
  let (type, subtype) ← Text.cut '/' (Text.trim (t.takeWhile (· ≠ ';')))
  if isToken type && isToken subtype then
    let parameters ← parameters? (t.dropWhile (· ≠ ';'))
    some ⟨Text.lower type, Text.lower subtype, parameters⟩
  else none

def parameter (c : ContentType) (name : Text) : Option Text :=
  (c.parameters.find? fun (n, _) => Text.sameLetters n name).map (·.2)

def is (c : ContentType) (type subtype : Text) : Bool :=
  Text.sameLetters c.type type && Text.sameLetters c.subtype subtype

end ContentType
end WebArchive
