import WebArchive.Text.Number

/-!
Internet addresses: the dotted form of version 4 and the colon form of version 6, where one run
of zero groups may be left out and the last two groups may be dotted.
-/
namespace WebArchive

inductive Address where
  | v4 (octets : List Nat)
  | v6 (groups : List Nat)
  deriving DecidableEq

namespace Address

def digitValue (c : Char) : Nat :=
  if c.isDigit then c.toNat - '0'.toNat
  else if 'a' ≤ c ∧ c ≤ 'f' then c.toNat - 'a'.toNat + 10
  else c.toNat - 'A'.toNat + 10

def isHexDigit (c : Char) : Bool :=
  c.isDigit || ('a' ≤ c && c ≤ 'f') || ('A' ≤ c && c ≤ 'F')

def number? (radix most : Nat) (t : Text) : Option (Nat × Text) :=
  let isDigit (c : Char) := if radix = 10 then c.isDigit else isHexDigit c
  let digits := t.takeWhile isDigit
  if digits = [] ∨ most < digits.length then none
  else some (digits.foldl (fun n c => radix * n + digitValue c) 0, t.dropWhile isDigit)

def octet? (t : Text) : Option (Nat × Text) := do
  let (n, rest) ← number? 10 3 t
  if n < 256 ∧ (Text.ofNat n).length + rest.length = t.length then some (n, rest) else none

def expect? (c : Char) : Text → Option Text
  | [] => none
  | d :: rest => if d = c then some rest else none

/-- Four octets with points between them. -/
def dotted? (t : Text) : Option (List Nat × Text) := do
  let (a, t) ← octet? t
  let (b, t) ← octet? (← expect? '.' t)
  let (c, t) ← octet? (← expect? '.' t)
  let (d, t) ← octet? (← expect? '.' t)
  some ([a, b, c, d], t)

def groupsOfOctets : List Nat → List Nat
  | a :: b :: rest => (256 * a + b) :: groupsOfOctets rest
  | _ => []

/-- Up to `room` groups with colons between them, the last two of which may be dotted; the groups,
whether a dotted form ended them, and the rest. -/
def groups (room : Nat) (first : Bool) (t : Text) : List Nat × Bool × Text :=
  match room with
  | 0 => ([], false, t)
  | room + 1 =>
    match (if first then some t else expect? ':' t) with
    | none => ([], false, t)
    | some inner =>
      match (if 1 ≤ room then dotted? inner else none) with
      | some (octets, rest) => (groupsOfOctets octets, true, rest)
      | none =>
        match number? 16 4 inner with
        | none => ([], false, t)
        | some (g, rest) =>
          let (more, dotted, rest) := groups room false rest
          (g :: more, dotted, rest)

def version6? (t : Text) : Option (List Nat × Text) :=
  let (head, dotted, rest) := groups 8 true t
  if head.length = 8 then some (head, rest)
  else if dotted then none
  else do
    let rest ← expect? ':' (← expect? ':' rest)
    let (tail, _, rest) := groups (7 - head.length) true rest
    some (head ++ List.replicate (8 - head.length - tail.length) 0 ++ tail, rest)

def parse? (t : Text) : Option Address :=
  match dotted? t with
  | some (octets, rest) => if rest = [] then some (.v4 octets) else none
  | none =>
    match version6? t with
    | some (gs, rest) => if rest = [] then some (.v6 gs) else none
    | none => none

def isVersion6 : Address → Bool
  | .v4 _ => false
  | .v6 _ => true

def octetsText (octets : List Nat) : Text := Text.join '.' (octets.map Text.ofNat)

def groupsText (gs : List Nat) : Text := Text.join ':' (gs.map (Nat.toDigits 16))

/-- For each place, how many zero groups follow from there on. -/
def zeroRuns : List Nat → List Nat
  | [] => []
  | g :: gs =>
    let runs := zeroRuns gs
    (if g = 0 then runs.headD 0 + 1 else 0) :: runs

/-- The longest run of at least two zero groups, the first of equals, is written as two colons;
an address that embeds one of version 4 shows it with points. -/
def display : Address → Text
  | .v4 octets => octetsText octets
  | .v6 gs =>
    match gs with
    | [0, 0, 0, 0, 0, 0xFFFF, high, low] =>
      "::ffff:".toList ++ octetsText [high / 256, high % 256, low / 256, low % 256]
    | _ =>
      let runs := zeroRuns gs
      let longest := runs.foldl max 0
      if longest < 2 then groupsText gs
      else
        let start := (runs.takeWhile (· ≠ longest)).length
        groupsText (gs.take start) ++ [':', ':'] ++ groupsText (gs.drop (start + longest))

end Address
end WebArchive
