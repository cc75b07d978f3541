import WebArchive.Stream.Readable

/-!
A source is the list of what its calls will meet: chunks of data and failures. Main facts:
`weight_consume` and `weight_fill_error`, every byte taken and every failure met is gone from it.
-/
namespace WebArchive

inductive Source.Event where
  | chunk (bs : Bytes)
  | failure (e : StreamError)

structure Source where
  events : List Source.Event

namespace Source

def Event.bytes : Event → Bytes
  | .chunk bs => bs
  | .failure _ => []

def Event.weight : Event → Nat
  | .chunk bs => bs.length
  | .failure _ => 1

/-- The data that are left, without regard to failures between them. -/
def bytes (s : Source) : Bytes := s.events.flatMap Event.bytes

def weight (s : Source) : Nat := s.events.foldr (fun e total => e.weight + total) 0

def ofBytes (bs : Bytes) : Source := ⟨[.chunk bs]⟩

/-- The same bytes in chunks of at most `size` bytes. -/
def cutChunk (size : Nat) (bs : Bytes) : List Event :=
  if _some : 0 < size then
    match _cut : bs.drop size with
    | [] => [.chunk bs]
    | b :: rest => .chunk (bs.take size) :: cutChunk size (b :: rest)
  else [.chunk bs]
termination_by bs.length
decreasing_by
  have shorter := congrArg List.length _cut
  simp only [List.length_drop, List.length_cons] at shorter ⊢
  omega

def cut (size : Nat) (s : Source) : Source :=
  ⟨s.events.flatMap fun
    | .chunk bs => cutChunk size bs
    | .failure e => [.failure e]⟩

def fillEvents : List Event → Except StreamError Bytes × List Event
  | [] => (.ok [], [])
  | .chunk [] :: rest => fillEvents rest
  | .chunk (b :: bs) :: rest => (.ok (b :: bs), .chunk (b :: bs) :: rest)
  | .failure e :: rest => (.error e, rest)

/-- What is left of the current chunk; a failure in front of it is reported once. -/
def fill (s : Source) : Answer Source Bytes :=
  let (answer, rest) := fillEvents s.events
  (answer, ⟨rest⟩)

def consume (s : Source) (n : Nat) : Source :=
  match s.events with
  | .chunk bs :: rest => ⟨.chunk (bs.drop n) :: rest⟩
  | events => ⟨events⟩

def read (s : Source) (n : Nat) : Answer Source Bytes :=
  if n = 0 then (.ok [], s)
  else match fill s with
    | (.ok bs, s') => (.ok (bs.take n), consume s' n)
    | (.error e, s') => (.error e, s')

theorem fillEvents_ok {events rest : List Event} {bs : Bytes}
    (h : fillEvents events = (.ok bs, rest)) :
    (bs = [] ∧ rest = []) ∨ ∃ tail, rest = .chunk bs :: tail := by
  fun_induction fillEvents events with
  | case1 => simp_all
  | case2 rest ih => exact ih h
  | case3 b bs rest =>
    simp only [Prod.mk.injEq, Except.ok.injEq] at h
    exact Or.inr ⟨rest, by rw [← h.1, ← h.2]⟩
  | case4 => simp at h

theorem weight_fillEvents (events : List Event) :
    (match fillEvents events with
      | (.ok _, rest) => weight ⟨rest⟩
      | (.error _, rest) => weight ⟨rest⟩ + 1) = weight ⟨events⟩ := by
  fun_induction fillEvents events with
  | case1 => rfl
  | case2 rest ih => simpa [weight, Event.weight] using ih
  | case3 => rfl
  | case4 e rest => simp [weight, Event.weight]; omega

theorem weight_fill_ok {s s' : Source} {bs : Bytes} (h : fill s = (.ok bs, s')) :
    weight s' = weight s := by
  have total := weight_fillEvents s.events
  cases hf : fillEvents s.events with
  | mk answer rest =>
    simp only [fill, hf, Prod.mk.injEq] at h
    obtain ⟨rfl, rfl⟩ := h
    simpa [hf, weight] using total

theorem weight_fill_error {s s' : Source} {e : StreamError} (h : fill s = (.error e, s')) :
    weight s' + 1 = weight s := by
  have total := weight_fillEvents s.events
  cases hf : fillEvents s.events with
  | mk answer rest =>
    simp only [fill, hf, Prod.mk.injEq] at h
    obtain ⟨rfl, rfl⟩ := h
    simpa [hf, weight] using total

theorem weight_consume {s s' : Source} {bs : Bytes} {k : Nat} (h : fill s = (.ok bs, s'))
    (bound : k ≤ bs.length) : weight (consume s' k) + k = weight s := by
  rw [← weight_fill_ok h]
  cases hf : fillEvents s.events with
  | mk answer rest =>
    simp only [fill, hf, Prod.mk.injEq] at h
    obtain ⟨rfl, rfl⟩ := h
    rcases fillEvents_ok hf with ⟨rfl, rfl⟩ | ⟨tail, rfl⟩
    · simp at bound; subst bound; rfl
    · simp [consume, weight, Event.weight]; omega

instance : Peekable Source where
  read := read
  weight := weight
  fill := fill
  consume := consume
  length_read := by
    intro s n bs s' h
    unfold read at h
    split at h
    · simp_all
    · split at h <;> simp at h
      rw [← h.1]; exact List.length_take_le ..
  weight_read := by
    intro s n bs s' h
    unfold read at h
    split at h
    · simp at h; simp [h.1, h.2]
    · split at h
      · rename_i shown next filled
        simp at h
        obtain ⟨rfl, rfl⟩ := h
        by_cases small : n ≤ shown.length
        · have := weight_consume filled small
          simp; omega
        · have same := weight_consume filled (Nat.le_refl _)
          have : consume next n = consume next shown.length := by
            simp only [consume]
            cases hf : fillEvents s.events with
            | mk answer rest =>
              simp only [fill, hf, Prod.mk.injEq] at filled
              obtain ⟨rfl, rfl⟩ := filled
              rcases fillEvents_ok hf with ⟨rfl, rfl⟩ | ⟨tail, rfl⟩
              · rfl
              · simp [List.drop_eq_nil_of_le (show shown.length ≤ n by omega)]
          simp [this]; omega
      · simp at h
  weight_error := by
    intro s n e s' h
    unfold read at h
    split at h
    · simp at h
    · split at h
      · simp at h
      · rename_i filled
        simp at h
        obtain ⟨rfl, rfl⟩ := h
        have := weight_fill_error filled
        omega
  weight_interrupted := by
    intro s n e s' h _
    unfold read at h
    split at h
    · simp at h
    · split at h
      · simp at h
      · rename_i filled
        simp at h
        obtain ⟨rfl, rfl⟩ := h
        have := weight_fill_error filled
        omega
  weight_fill h := Nat.le_of_eq (weight_fill_ok h)
  weight_consume h bound := Nat.le_of_eq (weight_consume h bound)
  weight_fill_error h := by have := weight_fill_error h; omega
  weight_fill_interrupted h _ := by have := weight_fill_error h; omega

end Source
end WebArchive
