import WebArchive.Proofs.Stream.Tracking
import WebArchive.Stream.Bounded
import WebArchive.Stream.Buffered
import WebArchive.Stream.Chained
import WebArchive.Stream.Cursor

/-!
What the streams of an archive still hold, and that every one of them is tracked: a source holds
the bytes of its chunks, a cursor knows how many are left, and windows, buffers and bytes put back
in front pass the tracking of the stream under them on.
-/
namespace WebArchive

namespace Source

def failures (s : Source) : List StreamError :=
  s.events.filterMap fun
    | .chunk _ => none
    | .failure e => some e

/-- The bytes to come, with no failures between them but those that are allowed for. -/
def Holds (E : StreamError → Prop) (s : Source) (d : Bytes) : Prop :=
  s.bytes = d ∧ ∀ e ∈ s.failures, E e

theorem holds_bytes (s : Source) : s.Holds (· ∈ s.failures) s.bytes := ⟨rfl, fun _ h => h⟩

/-- The source may be interrupted, and has no other failures. -/
def OnlyInterrupted (s : Source) : Prop := ∀ e ∈ s.failures, e.isInterrupted

theorem holds_onlyInterrupted {s : Source} (h : s.OnlyInterrupted) :
    s.Holds (·.isInterrupted) s.bytes := ⟨rfl, h⟩

theorem holds_noError {s : Source} (calm : s.failures = []) : s.Holds noError s.bytes :=
  ⟨rfl, by simp [calm]⟩

@[simp] theorem bytes_chunk (bs : Bytes) (rest : List Event) :
    bytes ⟨.chunk bs :: rest⟩ = bs ++ bytes ⟨rest⟩ := rfl

@[simp] theorem failures_chunk (bs : Bytes) (rest : List Event) :
    failures ⟨.chunk bs :: rest⟩ = failures ⟨rest⟩ := rfl

@[simp] theorem bytes_failure (e : StreamError) (rest : List Event) :
    bytes ⟨.failure e :: rest⟩ = bytes ⟨rest⟩ := rfl

@[simp] theorem failures_failure (e : StreamError) (rest : List Event) :
    failures ⟨.failure e :: rest⟩ = e :: failures ⟨rest⟩ := rfl

def undisturbed (s : Source) : Source := ⟨s.events.filter (· matches .chunk _)⟩

theorem holds_undisturbed (s : Source) : s.undisturbed.Holds noError s.bytes := by
  obtain ⟨events⟩ := s
  induction events with
  | nil => exact ⟨rfl, by simp [undisturbed, failures]⟩
  | cons event rest ih =>
    cases event with
    | chunk bs =>
      have same : undisturbed ⟨.chunk bs :: rest⟩ =
          ⟨.chunk bs :: (undisturbed ⟨rest⟩).events⟩ := rfl
      rw [same]
      exact ⟨congrArg (bs ++ ·) ih.1, ih.2⟩
    | failure e => exact ih

theorem fillEvents_holds_ok {E : StreamError → Prop} {events rest : List Event} {d bs : Bytes}
    (h : Holds E ⟨events⟩ d) (call : fillEvents events = (.ok bs, rest)) :
    Holds E ⟨rest⟩ d ∧ bs <+: d ∧ (bs = [] → d = []) := by
  fun_induction fillEvents events with
  | case1 =>
    simp only [Prod.mk.injEq, Except.ok.injEq] at call
    obtain ⟨rfl, rfl⟩ := call
    exact ⟨h, List.nil_prefix, fun _ => h.1.symm⟩
  | case2 tail ih => exact ih h call
  | case3 b front tail =>
    simp only [Prod.mk.injEq, Except.ok.injEq] at call
    obtain ⟨rfl, rfl⟩ := call
    exact ⟨h, ⟨bytes ⟨tail⟩, h.1⟩, by simp⟩
  | case4 => simp at call

theorem fillEvents_holds_error {E : StreamError → Prop} {events rest : List Event} {d : Bytes}
    {e : StreamError} (h : Holds E ⟨events⟩ d) (call : fillEvents events = (.error e, rest)) :
    E e ∧ Holds E ⟨rest⟩ d := by
  fun_induction fillEvents events with
  | case1 => simp at call
  | case2 tail ih => exact ih h call
  | case3 => simp at call
  | case4 e' tail =>
    simp only [Prod.mk.injEq, Except.error.injEq] at call
    obtain ⟨rfl, rfl⟩ := call
    exact ⟨h.2 e' (by simp), h.1, fun e some => h.2 e (by simp [some])⟩

theorem fill_ok {s s' : Source} {bs : Bytes} (call : fill s = (.ok bs, s')) :
    fillEvents s.events = (.ok bs, s'.events) := by
  rcases found : fillEvents s.events with ⟨answer, rest⟩
  simp only [fill, found, Prod.mk.injEq] at call
  obtain ⟨rfl, rfl⟩ := call
  rfl

theorem fill_error {s s' : Source} {e : StreamError} (call : fill s = (.error e, s')) :
    fillEvents s.events = (.error e, s'.events) := by
  rcases found : fillEvents s.events with ⟨answer, rest⟩
  simp only [fill, found, Prod.mk.injEq] at call
  obtain ⟨rfl, rfl⟩ := call
  rfl

theorem consume_holds {E : StreamError → Prop} {s s' : Source} {d bs : Bytes} {k : Nat}
    (h : s.Holds E d) (call : fill s = (.ok bs, s')) (bound : k ≤ bs.length) :
    (consume s' k).Holds E (d.drop k) := by
  obtain ⟨left, _, _⟩ := fillEvents_holds_ok h (fill_ok call)
  obtain ⟨events⟩ := s'
  rcases fillEvents_ok (fill_ok call) with ⟨rfl, rfl⟩ | ⟨tail, rfl⟩
  · obtain rfl : k = 0 := Nat.le_zero.mp bound
    exact left
  · obtain ⟨rfl, few⟩ := left
    exact ⟨by simp [consume, List.drop_append_of_le_length bound], few⟩

theorem consume_take {s s' : Source} {bs : Bytes} {n : Nat} (call : fill s = (.ok bs, s')) :
    consume s' n = consume s' (bs.take n).length := by
  obtain ⟨events⟩ := s'
  rcases fillEvents_ok (fill_ok call) with ⟨rfl, rfl⟩ | ⟨tail, rfl⟩
  · rfl
  · by_cases small : n ≤ bs.length
    · rw [List.length_take_of_le small]
    · simp [consume, List.drop_eq_nil_of_le, Nat.le_of_not_le small]

theorem read_ok {s s' : Source} {n : Nat} {bs : Bytes} (call : read s n = (.ok bs, s')) :
    (n = 0 ∧ bs = [] ∧ s' = s) ∨ ∃ shown next, 0 < n ∧ fill s = (.ok shown, next) ∧
      bs = shown.take n ∧ s' = consume next n := by
  unfold read at call
  split at call
  · rename_i none
    simp only [Prod.mk.injEq, Except.ok.injEq] at call
    exact Or.inl ⟨none, call.1.symm, call.2.symm⟩
  · rename_i some
    split at call <;> simp only [Prod.mk.injEq, Except.ok.injEq, reduceCtorEq, false_and] at call
    rename_i shown next filled
    exact Or.inr ⟨shown, next, Nat.pos_of_ne_zero some, filled, call.1.symm, call.2.symm⟩

theorem read_error {s s' : Source} {n : Nat} {e : StreamError} (call : read s n = (.error e, s')) :
    fill s = (.error e, s') := by
  unfold read at call
  split at call
  · simp at call
  · split at call <;> simp only [Prod.mk.injEq, Except.error.injEq, reduceCtorEq, false_and] at call
    rename_i filled
    obtain ⟨rfl, rfl⟩ := call
    exact filled

theorem tracks (E : StreamError → Prop) : Peekable.Tracks (σ := Source) (Holds E) E where
  taken := by
    intro s d n bs s' h call
    rcases read_ok call with ⟨_, rfl, rfl⟩ | ⟨shown, next, _, filled, rfl, rfl⟩
    · exact ⟨d, rfl, h⟩
    · obtain ⟨_, front, _⟩ := fillEvents_holds_ok h (fill_ok filled)
      have after := consume_holds h filled (List.length_take_le' n shown)
      rw [← consume_take filled] at after
      have part : shown.take n <+: d := (List.take_prefix n shown).trans front
      exact ⟨_, (List.prefix_iff_eq_append.mp part).symm, after⟩
  ended := by
    intro s d n s' h some call
    rcases read_ok call with ⟨rfl, _⟩ | ⟨shown, next, _, filled, none, _⟩
    · exact absurd some (Nat.lt_irrefl 0)
    · obtain ⟨_, _, last⟩ := fillEvents_holds_ok h (fill_ok filled)
      refine last ?_
      rcases List.take_eq_nil_iff.mp none.symm with rfl | none
      · exact absurd some (Nat.lt_irrefl 0)
      · exact none
  failed := by
    intro s d n e s' h call
    exact fillEvents_holds_error h (fill_error (read_error call))
  shown := by
    intro s d bs s' h call
    obtain ⟨left, front, none⟩ := fillEvents_holds_ok h (fill_ok call)
    exact ⟨front, none, left, fun k bound => consume_holds h call bound⟩
  unseen := by
    intro s d e s' h call
    exact fillEvents_holds_error h (fill_error call)

end Source

namespace Cursor

/-- The source of a cursor that began at zero, over `total` bytes in all, holds `d`. -/
def Holds (E : StreamError → Prop) (total : Nat) (c : Cursor) (d : Bytes) : Prop :=
  c.source.Holds E d ∧ c.position + d.length = total

theorem read_ok {c c' : Cursor} {n : Nat} {bs : Bytes} (call : read c n = (.ok bs, c')) :
    c.source.read n = (.ok bs, c'.source) ∧ c'.position = c.position + bs.length := by
  unfold read at call
  split at call <;> simp only [Prod.mk.injEq, Except.ok.injEq, reduceCtorEq, false_and] at call
  rename_i answer
  obtain ⟨rfl, rfl⟩ := call
  exact ⟨answer, rfl⟩

theorem read_error {c c' : Cursor} {n : Nat} {e : StreamError}
    (call : read c n = (.error e, c')) :
    c.source.read n = (.error e, c'.source) ∧ c'.position = c.position := by
  unfold read at call
  split at call <;> simp only [Prod.mk.injEq, Except.error.injEq, reduceCtorEq, false_and] at call
  rename_i answer
  obtain ⟨rfl, rfl⟩ := call
  exact ⟨answer, rfl⟩

theorem fill_eq {c c' : Cursor} {answer : Except StreamError Bytes}
    (call : fill c = (answer, c')) :
    c.source.fill = (answer, c'.source) ∧ c'.position = c.position := by
  simp only [fill, Prod.mk.injEq] at call
  obtain ⟨rfl, rfl⟩ := call
  exact ⟨rfl, rfl⟩

theorem tracks (E : StreamError → Prop) (total : Nat) :
    Peekable.Tracks (σ := Cursor) (Holds E total) E where
  taken := by
    intro c d n bs c' h call
    obtain ⟨answer, place⟩ := read_ok call
    obtain ⟨rest, rfl, left⟩ := (Source.tracks E).taken h.1 answer
    have length := h.2
    rw [List.length_append] at length
    exact ⟨rest, rfl, left, by omega⟩
  ended := by
    intro c d n c' h some call
    exact (Source.tracks E).ended h.1 some (read_ok call).1
  failed := by
    intro c d n e c' h call
    obtain ⟨answer, place⟩ := read_error call
    obtain ⟨possible, left⟩ := (Source.tracks E).failed h.1 answer
    exact ⟨possible, left, by rw [place]; exact h.2⟩
  shown := by
    intro c d bs c' h call
    obtain ⟨answer, place⟩ := fill_eq call
    obtain ⟨front, none, left, after⟩ := (Source.tracks E).shown h.1 answer
    have length := h.2
    refine ⟨front, none, ⟨left, by rw [place]; exact length⟩, fun k bound => ⟨after k bound, ?_⟩⟩
    have := front.length_le
    show c'.position + k + (d.drop k).length = total
    rw [List.length_drop]
    omega
  unseen := by
    intro c d e c' h call
    obtain ⟨answer, place⟩ := fill_eq call
    obtain ⟨possible, left⟩ := (Source.tracks E).unseen h.1 answer
    exact ⟨possible, left, by rw [place]; exact h.2⟩

/-- What is tracked also says where the cursor stands, in `total` bytes. -/
structure Places (I : Cursor → Bytes → Prop) (E : StreamError → Prop) (total : Nat) : Prop where
  tracked : Peekable.Tracks I E
  place : ∀ {c d}, I c d → c.position + d.length = total

theorem places (E : StreamError → Prop) (total : Nat) : Places (Holds E total) E total where
  tracked := tracks E total
  place h := h.2

namespace Places
variable {I : Cursor → Bytes → Prop} {E : StreamError → Prop} {total : Nat}

theorem position_eq (p : Places I E total) {c : Cursor} {d : Bytes} (h : I c d) :
    c.position = total - d.length := by
  have := p.place h
  omega

/-- The target is nearer once the cursor has moved, for the position moves with the bytes. -/
theorem split_target (p : Places I E total) {c next : Cursor} {d bs : Bytes} {target : Nat}
    (h : I c d)
    (left : I (Peekable.consume next (min bs.length (target - c.position)))
      (d.drop (min bs.length (target - c.position))))
    (inside : bs.length ≤ d.length) :
    target - c.position = min bs.length (target - c.position) +
      (target - (Peekable.consume next (min bs.length (target - c.position))).position) := by
  have before := p.place h
  have after := p.position_eq left
  rw [List.length_drop] at after
  omega

/-- Skipping stops at the target or at the end, and does not move if the target is passed; or it
breaks off on the way. -/
theorem skipTo_cases (p : Places I E total) {c : Cursor} {d : Bytes} (h : I c d) (target : Nat) :
    (∃ n c', c.skipTo target = (.ok n, c') ∧ I c' (d.drop (target - c.position))) ∨
    ∃ e c' front, c.skipTo target = (.error e, c') ∧ front.length ≤ target - c.position ∧
      Peekable.Breaks I d front e c' := by
  fun_induction skipTo c target generalizing d with
  | case1 c passed =>
    rw [Nat.sub_eq_zero_of_le passed]
    exact Or.inl ⟨0, c, rfl, h⟩
  | case2 c before e next call =>
    exact Or.inr ⟨e, next, [], rfl, Nat.zero_le _, Peekable.breaks_here h call⟩
  | case3 c before next call =>
    obtain ⟨_, none, left, _⟩ := p.tracked.fillOn_ok h call
    obtain rfl := none rfl
    exact Or.inl ⟨0, next, rfl, by simpa using left⟩
  | case4 c before b bs next call step more last answer =>
    rename_i ih
    obtain ⟨front, _, _, after⟩ := p.tracked.fillOn_ok h call
    have left := after step (Nat.min_le_left ..)
    rcases ih left with ⟨n, c', gave, held⟩ | ⟨_, _, _, gave, _⟩
    · obtain ⟨rfl, rfl⟩ := Outcome.ok_inj answer gave
      refine Or.inl ⟨_, last, rfl, ?_⟩
      rw [List.drop_drop] at held
      rwa [p.split_target h left front.length_le]
    · exact absurd gave (Outcome.ne_error answer)
  | case5 c before b bs next call step e last answer =>
    rename_i ih
    obtain ⟨front, _, _, after⟩ := p.tracked.fillOn_ok h call
    have left := after step (Nat.min_le_left ..)
    rcases ih left with ⟨_, _, gave, _⟩ | ⟨_, _, passed, gave, inside, breaks⟩
    · exact absurd answer (Outcome.ne_error gave)
    · cases answer.symm.trans gave
      have breaks := breaks.behind (d.take step)
      rw [List.take_append_drop] at breaks
      refine Or.inr ⟨e, last, d.take step ++ passed, rfl, ?_, breaks⟩
      rw [List.length_append]
      exact Nat.le_trans (Nat.add_le_add (List.length_take_le ..) inside)
        (Nat.le_of_eq (p.split_target h left front.length_le).symm)

theorem skipTo_eq (p : Places I E total) (quiet : Quiet E) {c : Cursor} {d : Bytes} {target : Nat}
    (h : I c d) :
    ∃ n c', c.skipTo target = (.ok n, c') ∧ I c' (d.drop (target - c.position)) := by
  rcases p.skipTo_cases h target with answer | ⟨_, _, _, _, _, breaks⟩
  · exact answer
  · exact absurd breaks (p.tracked.not_breaks quiet)

end Places

end Cursor

namespace Bounded
variable {σ : Type} [Readable σ]

/-- The window still holds `d`. Behind it the stream holds `behind`, and `missing` bytes of the
window are not there; one of the two is always empty. -/
def Holds (I : σ → Bytes → Prop) (behind : Bytes) (missing : Nat) (w : Bounded σ) (d : Bytes) :
    Prop :=
  I w.inner (d ++ behind) ∧ w.remaining = d.length + missing ∧ (missing = 0 ∨ behind = [])

omit [Readable σ] in
theorem holds_take {I : σ → Bytes → Prop} {s : σ} {d : Bytes} (h : I s d) (length : Nat) :
    Holds I (d.drop length) (length - d.length) ⟨s, length⟩ (d.take length) := by
  refine ⟨by rwa [List.take_append_drop], ?_, ?_⟩
  · show length = (d.take length).length + (length - d.length)
    rw [List.length_take]
    omega
  · by_cases enough : length ≤ d.length
    · exact Or.inl (Nat.sub_eq_zero_of_le enough)
    · exact Or.inr (List.drop_eq_nil_of_le (Nat.le_of_not_le enough))

theorem tracks {I : σ → Bytes → Prop} {E : StreamError → Prop} (t : Readable.Tracks I E)
    (behind : Bytes) (missing : Nat) :
    Readable.Tracks (σ := Bounded σ) (Holds I behind missing) E where
  taken := by
    intro w d n bs w' h call
    rcases read_ok call with ⟨rfl, rfl⟩ | ⟨inner, answer, rfl⟩
    · exact ⟨d, rfl, h⟩
    · obtain ⟨held, room, fits⟩ := h
      obtain ⟨rest, same, left⟩ := t.taken held answer
      have few := Readable.length_read answer
      -- either the window is all there, or there is nothing behind it that could be taken
      have inside : bs <+: d := by
        rcases fits with rfl | rfl
        · refine List.prefix_of_prefix_length_le ⟨rest, same.symm⟩ (List.prefix_append d behind) ?_
          omega
        · exact ⟨rest, by rw [← same, List.append_nil]⟩
      obtain ⟨more, rfl⟩ := inside
      rw [List.append_assoc, List.append_cancel_left_eq] at same
      subst same
      refine ⟨more, rfl, left, ?_, fits⟩
      simp only [room, List.length_append]
      omega
  ended := by
    intro w d n w' h some call
    obtain ⟨held, room, _⟩ := h
    by_cases closed : w.remaining = 0
    · exact List.eq_nil_of_length_eq_zero (by omega)
    · have asked : Readable.read w.inner (min n w.remaining) = (.ok [], w'.inner) := by
        have answer : read w n = (.ok [], w') := call
        rw [read, if_neg (by omega)] at answer
        split at answer <;>
          simp only [Prod.mk.injEq, Except.ok.injEq, reduceCtorEq, false_and] at answer
        rename_i inner found
        obtain ⟨rfl, rfl⟩ := answer
        exact found
      have none := t.ended held (by omega) asked
      exact (List.append_eq_nil_iff.mp none).1
  failed := by
    intro w d n e w' h call
    obtain ⟨possible, left⟩ := t.failed h.1 (read_error call)
    have same : w'.remaining = w.remaining := by
      have answer : read w n = (.error e, w') := call
      unfold read at answer
      split at answer
      · simp at answer
      · split at answer <;>
          simp only [Prod.mk.injEq, Except.error.injEq, reduceCtorEq, false_and] at answer
        rw [← answer.2]
    exact ⟨possible, left, by rw [same]; exact h.2.1, h.2.2⟩

end Bounded

namespace Chained
variable {σ : Type} [Readable σ]

def Holds (I : σ → Bytes → Prop) (s : Chained σ) (d : Bytes) : Prop :=
  ∃ rest, I s.inner rest ∧ d = s.front ++ rest

theorem tracks {I : σ → Bytes → Prop} {E : StreamError → Prop} (t : Readable.Tracks I E) :
    Readable.Tracks (σ := Chained σ) (Holds I) E where
  taken := by
    rintro s _ n bs s' ⟨rest, held, rfl⟩ call
    rcases read_ok call with ⟨_, rfl, rfl⟩ | ⟨inner, none, answer, rfl⟩
    · exact ⟨s.front.drop n ++ rest, by rw [← List.append_assoc, List.take_append_drop],
        rest, held, rfl⟩
    · obtain ⟨more, rfl, left⟩ := t.taken held answer
      exact ⟨more, by rw [none]; rfl, more, left, by rw [none]; rfl⟩
  ended := by
    rintro s _ n s' ⟨rest, held, rfl⟩ some call
    rcases read_ok call with ⟨shown, empty, _⟩ | ⟨inner, none, answer, _⟩
    · rcases List.take_eq_nil_iff.mp empty.symm with rfl | none
      · exact absurd some (Nat.lt_irrefl 0)
      · exact absurd none shown
    · rw [none, t.ended held some answer]
      rfl
  failed := by
    rintro s _ n e s' ⟨rest, held, rfl⟩ call
    obtain ⟨inner, _, answer, rfl⟩ := read_error call
    obtain ⟨possible, left⟩ := t.failed held answer
    exact ⟨possible, rest, left, rfl⟩

end Chained

namespace Buffered
variable {σ : Type} [Readable σ]

def Holds (I : σ → Bytes → Prop) (s : Buffered σ) (d : Bytes) : Prop :=
  ∃ rest, I s.inner rest ∧ d = s.buffer ++ rest

omit [Readable σ] in
theorem holds_start {I : σ → Bytes → Prop} {s : σ} {d : Bytes} (h : I s d) :
    Holds I { inner := s } d := ⟨d, h, rfl⟩

variable {I : σ → Bytes → Prop} {E : StreamError → Prop}

theorem fill_holds_ok (t : Readable.Tracks I E) {s s' : Buffered σ} {d bs : Bytes}
    (h : s.Holds I d) (call : fill s = (.ok bs, s')) :
    s'.buffer = bs ∧ s'.Holds I d ∧ (bs = [] → d = []) := by
  obtain ⟨rest, held, rfl⟩ := h
  unfold fill at call
  split at call
  · rename_i some
    simp only [Prod.mk.injEq, Except.ok.injEq] at call
    obtain ⟨rfl, rfl⟩ := call
    exact ⟨rfl, ⟨rest, held, rfl⟩, fun none => absurd none some⟩
  · rename_i none
    rw [ne_eq, Classical.not_not] at none
    split at call <;> simp only [Prod.mk.injEq, Except.ok.injEq, reduceCtorEq, false_and] at call
    rename_i inner answer
    obtain ⟨rfl, rfl⟩ := call
    obtain ⟨more, rfl, left⟩ := t.taken held answer
    refine ⟨rfl, ⟨more, left, by rw [none]; rfl⟩, ?_⟩
    rintro rfl
    rw [none, t.ended held (by decide) answer]
    rfl

theorem fill_holds_error (t : Readable.Tracks I E) {s s' : Buffered σ} {d : Bytes}
    {e : StreamError} (h : s.Holds I d) (call : fill s = (.error e, s')) :
    E e ∧ s'.Holds I d := by
  obtain ⟨rest, held, rfl⟩ := h
  unfold fill at call
  split at call
  · simp at call
  · split at call <;> simp only [Prod.mk.injEq, Except.error.injEq, reduceCtorEq, false_and] at call
    rename_i inner answer
    obtain ⟨rfl, rfl⟩ := call
    obtain ⟨possible, left⟩ := t.failed held answer
    exact ⟨possible, rest, left, rfl⟩

omit [Readable σ] in
theorem consume_holds {s : Buffered σ} {d : Bytes} {k : Nat} (h : s.Holds I d)
    (bound : k ≤ s.buffer.length) : (s.consume k).Holds I (d.drop k) := by
  obtain ⟨rest, held, rfl⟩ := h
  exact ⟨rest, held, List.drop_append_of_le_length bound⟩

/-- What a read that answers has done: gone past an empty buffer, nothing, or taken from a filled
buffer. -/
theorem read_ok {s s' : Buffered σ} {n : Nat} {bs : Bytes} (call : read s n = (.ok bs, s')) :
    (s.buffer = [] ∧ ∃ inner, Readable.read s.inner n = (.ok bs, inner) ∧ s' = { s with inner }) ∨
      (n = 0 ∧ bs = [] ∧ s' = s) ∨
      ∃ shown next, 0 < n ∧ s.fill = (.ok shown, next) ∧ bs = shown.take n ∧
        s' = next.consume n := by
  unfold read at call
  split at call
  · rename_i large
    split at call <;> simp only [Prod.mk.injEq, Except.ok.injEq, reduceCtorEq, false_and] at call
    rename_i inner answer
    obtain ⟨rfl, rfl⟩ := call
    exact Or.inl ⟨large.1, inner, answer, rfl⟩
  · split at call
    · rename_i none
      simp only [Prod.mk.injEq, Except.ok.injEq] at call
      exact Or.inr (Or.inl ⟨none, call.1.symm, call.2.symm⟩)
    · rename_i some
      split at call <;> simp only [Prod.mk.injEq, Except.ok.injEq, reduceCtorEq, false_and] at call
      rename_i shown next filled
      exact Or.inr (Or.inr
        ⟨shown, next, Nat.pos_of_ne_zero some, filled, call.1.symm, call.2.symm⟩)

theorem read_error {s s' : Buffered σ} {n : Nat} {e : StreamError}
    (call : read s n = (.error e, s')) :
    (∃ inner, Readable.read s.inner n = (.error e, inner) ∧ s' = { s with inner }) ∨
      s.fill = (.error e, s') := by
  unfold read at call
  split at call
  · split at call <;> simp only [Prod.mk.injEq, Except.error.injEq, reduceCtorEq, false_and] at call
    rename_i inner answer
    obtain ⟨rfl, rfl⟩ := call
    exact Or.inl ⟨inner, answer, rfl⟩
  · split at call
    · simp at call
    · split at call <;>
        simp only [Prod.mk.injEq, Except.error.injEq, reduceCtorEq, false_and] at call
      rename_i filled
      obtain ⟨rfl, rfl⟩ := call
      exact Or.inr filled

theorem tracks (t : Readable.Tracks I E) : Peekable.Tracks (σ := Buffered σ) (Holds I) E where
  taken := by
    intro s d n bs s' h call
    rcases read_ok call with ⟨none, inner, answer, rfl⟩ | ⟨_, rfl, rfl⟩ |
      ⟨shown, next, _, filled, rfl, rfl⟩
    · obtain ⟨rest, held, rfl⟩ := h
      obtain ⟨more, rfl, left⟩ := t.taken held answer
      exact ⟨more, by rw [none]; rfl, more, left, by rw [none]; rfl⟩
    · exact ⟨d, rfl, h⟩
    · obtain ⟨rfl, ⟨rest, held, rfl⟩, _⟩ := fill_holds_ok t h filled
      exact ⟨next.buffer.drop n ++ rest, by rw [← List.append_assoc, List.take_append_drop],
        rest, held, rfl⟩
  ended := by
    intro s d n s' h some call
    rcases read_ok call with ⟨none, inner, answer, _⟩ | ⟨rfl, _⟩ |
      ⟨shown, next, _, filled, empty, _⟩
    · obtain ⟨rest, held, rfl⟩ := h
      rw [none, t.ended held some answer]
      rfl
    · exact absurd some (Nat.lt_irrefl 0)
    · obtain ⟨_, _, last⟩ := fill_holds_ok t h filled
      refine last ?_
      rcases List.take_eq_nil_iff.mp empty.symm with rfl | none
      · exact absurd some (Nat.lt_irrefl 0)
      · exact none
  failed := by
    intro s d n e s' h call
    rcases read_error call with ⟨inner, answer, rfl⟩ | filled
    · obtain ⟨rest, held, rfl⟩ := h
      obtain ⟨possible, left⟩ := t.failed held answer
      exact ⟨possible, rest, left, rfl⟩
    · exact fill_holds_error t h filled
  shown := by
    intro s d bs s' h call
    obtain ⟨rfl, left, none⟩ := fill_holds_ok t h call
    have front : s'.buffer <+: d := by
      obtain ⟨rest, _, rfl⟩ := left
      exact List.prefix_append ..
    exact ⟨front, none, left, fun k bound => consume_holds left bound⟩
  unseen := fill_holds_error t

end Buffered
end WebArchive
