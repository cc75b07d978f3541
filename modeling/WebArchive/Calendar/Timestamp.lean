import WebArchive.Calendar.Instant

/-!
The two written forms of a time: the fourteen digits of ARC headers, always UTC, and RFC 3339
with an offset in WARC headers.
-/
namespace WebArchive.Calendar

def digits? (n : Nat) (t : Text) : Option (Nat × Text) :=
  let front := t.take n
  if front.length = n then (Text.decimal? front).map fun value => (value, t.drop n) else none

def skip? (allowed : List Char) : Text → Option Text
  | [] => none
  | c :: rest => if c ∈ allowed then some rest else none

/-- `YYYYMMDDhhmmss`. -/
def compactTime? (t : Text) : Option CivilTime := do
  let (year, t) ← digits? 4 t
  let (month, t) ← digits? 2 t
  let (day, t) ← digits? 2 t
  let (hour, t) ← digits? 2 t
  let (minute, t) ← digits? 2 t
  let (second, t) ← digits? 2 t
  if t = [] then some ⟨⟨year, month, day⟩, hour, minute, second, 0⟩ else none

/-- The time of an ARC header. -/
def compact? (t : Text) : Option Instant := (compactTime? t).bind fun time => time.instant? 0

/-- A fraction of a second in nanoseconds: at least one digit, those after the ninth dropped. -/
def fraction? (t : Text) : Option (Nat × Text) :=
  match t with
  | '.' :: rest =>
    let digits := rest.takeWhile Char.isDigit
    if digits = [] then none
    else
      let nine := (digits ++ List.replicate 8 '0').take 9
      (Text.decimal? nine).map fun nanos => (nanos, rest.dropWhile Char.isDigit)
  | _ => some (0, t)

/-- The distance from UTC in seconds: `Z`, or a sign (the minus sign of typography too), hours
and minutes. -/
def offset? : Text → Option (Int × Text)
  | [] => none
  | c :: rest =>
    if c = 'Z' ∨ c = 'z' then some (0, rest)
    else do
      let sign ← if c = '+' then some 1 else if c = '-' ∨ c = '\u2212' then some (-1) else none
      let (hours, t) ← digits? 2 rest
      let t ← skip? [':'] t
      let (minutes, t) ← digits? 2 t
      if hours < 24 ∧ minutes < 60 then some (sign * (3600 * hours + 60 * minutes : Nat), t)
      else none

def rfc3339Time? (t : Text) : Option (CivilTime × Int) := do
  let (year, t) ← digits? 4 t
  let t ← skip? ['-'] t
  let (month, t) ← digits? 2 t
  let t ← skip? ['-'] t
  let (day, t) ← digits? 2 t
  let t ← skip? ['T', 't', ' '] t
  let (hour, t) ← digits? 2 t
  let t ← skip? [':'] t
  let (minute, t) ← digits? 2 t
  let t ← skip? [':'] t
  let (second, t) ← digits? 2 t
  let (nanos, t) ← fraction? t
  let (offset, t) ← offset? t
  if t = [] then some (⟨⟨year, month, day⟩, hour, minute, second, nanos⟩, offset) else none

/-- The time of a WARC header. -/
def rfc3339? (t : Text) : Option Instant :=
  (rfc3339Time? t).bind fun (time, offset) => time.instant? offset

end WebArchive.Calendar
