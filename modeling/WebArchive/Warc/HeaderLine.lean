import WebArchive.Text.Blank

/-!
The lines of a WARC header block: a name, a colon and a value, which may go on in lines that begin
with a space or a tab. Main fact: `length_ofLines_le`, lines are joined and never lost.
-/
namespace WebArchive.Warc

inductive HeaderLine where
  /-- both parts without white space around them -/
  | field (name value : Text)
  /-- a line that has no name before a colon, as it is -/
  | other (line : Text)
  deriving DecidableEq

namespace HeaderLine

def parse (line : Text) : HeaderLine :=
  match Text.cut ':' line with
  | some (name, value) =>
    if Text.trim name = [] then .other line else .field (Text.trim name) (Text.trim value)
  | none => .other line

def isContinuation : Text → Bool
  | [] => false
  | c :: _ => c = ' ' || c = '\t'

/-- The lines of a block from the current one on: continuations go behind the value of a field,
after a space. -/
def ofLinesAfter (current : HeaderLine) : List Text → List HeaderLine
  | [] => [current]
  | line :: rest =>
    match current with
    | .field name value =>
      if isContinuation line then ofLinesAfter (.field name (value ++ ' ' :: Text.trim line)) rest
      else current :: ofLinesAfter (parse line) rest
    | .other _ => current :: ofLinesAfter (parse line) rest

def ofLines : List Text → List HeaderLine
  | [] => []
  | line :: rest => ofLinesAfter (parse line) rest

def valueNamed? (name : Text) : HeaderLine → Option Text
  | .field n value => if Text.sameLetters n name then some value else none
  | .other _ => none

theorem length_ofLinesAfter_le (current : HeaderLine) (lines : List Text) :
    (ofLinesAfter current lines).length ≤ lines.length + 1 := by
  induction lines generalizing current with
  | nil => simp [ofLinesAfter]
  | cons line rest ih =>
    have next := ih (parse line)
    cases current with
    | other => simp only [ofLinesAfter, List.length_cons]; omega
    | field name value =>
      have joined := ih (.field name (value ++ ' ' :: Text.trim line))
      simp only [ofLinesAfter]
      split <;> simp only [List.length_cons] <;> omega

theorem length_ofLines_le (lines : List Text) : (ofLines lines).length ≤ lines.length := by
  cases lines with
  | nil => exact Nat.le_refl _
  | cons line rest => exact length_ofLinesAfter_le (parse line) rest

end HeaderLine
end WebArchive.Warc
