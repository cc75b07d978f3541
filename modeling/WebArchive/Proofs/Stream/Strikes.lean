import WebArchive.Proofs.Stream.Delivery
import WebArchive.Proofs.Stream.Lines

/-!
Where a source fails. A strike is an offset at which a failure comes up. Each failure is met once,
and all else goes by the position: `Cursor.On` says which chunks are left there and which strikes
are still to come, and `Cursor.places_on` that reading keeps it so.
-/
namespace WebArchive

namespace Source

def chunks (s : Source) : List Bytes :=
  s.events.filterMap fun
    | .chunk bs => some bs
    | .failure _ => none

/-- What is left of some chunks behind their first `n` bytes, with no empty chunk in front. -/
def dropBytes : Nat → List Bytes → List Bytes
  | _, [] => []
  | n, bs :: rest => if bs.length ≤ n then dropBytes (n - bs.length) rest else bs.drop n :: rest

/-- The offsets of the failures among events that begin at `start`. -/
def strikesFrom : Nat → List Event → List Nat
  | _, [] => []
  | start, .chunk bs :: rest => strikesFrom (start + bs.length) rest
  | start, .failure _ :: rest => start :: strikesFrom start rest

def strikes (s : Source) : List Nat := strikesFrom 0 s.events

theorem length_strikesFrom (start : Nat) (events : List Event) :
    (strikesFrom start events).length = (failures ⟨events⟩).length := by
  induction events generalizing start with
  | nil => rfl
  | cons event rest ih => cases event <;> simp [strikesFrom, ih]

theorem le_of_mem_strikesFrom {start p : Nat} {events : List Event}
    (h : p ∈ strikesFrom start events) : start ≤ p := by
  induction events generalizing start with
  | nil => simp [strikesFrom] at h
  | cons event rest ih =>
    cases event with
    | chunk bs => exact Nat.le_trans (Nat.le_add_right ..) (ih h)
    | failure e =>
      rcases List.mem_cons.mp h with rfl | later
      · exact Nat.le_refl _
      · exact ih later

@[simp] theorem chunks_chunk (bs : Bytes) (rest : List Event) :
    chunks ⟨.chunk bs :: rest⟩ = bs :: chunks ⟨rest⟩ := rfl

@[simp] theorem chunks_failure (e : StreamError) (rest : List Event) :
    chunks ⟨.failure e :: rest⟩ = chunks ⟨rest⟩ := rfl

theorem chunks_undisturbed (s : Source) : s.undisturbed.chunks = s.chunks := by
  obtain ⟨events⟩ := s
  induction events with
  | nil => rfl
  | cons event rest ih =>
    cases event with
    | chunk bs => exact congrArg (bs :: ·) ih
    | failure e => exact ih

theorem dropBytes_add (a b : Nat) (chunks : List Bytes) :
    dropBytes (a + b) chunks = dropBytes b (dropBytes a chunks) := by
  induction chunks generalizing a with
  | nil => rfl
  | cons bs rest ih =>
    by_cases all : bs.length ≤ a
    · rw [dropBytes, if_pos (by omega), dropBytes, if_pos all, ← ih]
      congr 1
      omega
    · rw [dropBytes.eq_2 a, if_neg all, dropBytes, dropBytes, List.length_drop]
      by_cases through : bs.length ≤ a + b
      · rw [if_pos through, if_pos (by omega)]
        congr 1
        omega
      · rw [if_neg through, if_neg (by omega), List.drop_drop]

theorem dropBytes_drop {bs : Bytes} {k : Nat} (inside : k ≤ bs.length) (rest : List Bytes) :
    dropBytes 0 (bs.drop k :: rest) = dropBytes k (bs :: rest) := by
  rw [dropBytes, dropBytes, List.length_drop]
  by_cases all : bs.length ≤ k
  · rw [if_pos all, if_pos (by omega)]
    congr 1
    omega
  · rw [if_neg all, if_neg (by omega), List.drop_zero]

theorem fillEvents_shown {events rest : List Event} {bs : Bytes}
    (call : fillEvents events = (.ok bs, rest)) :
    dropBytes 0 (chunks ⟨events⟩) = dropBytes 0 (chunks ⟨rest⟩) ∧
      (∀ start, strikesFrom start events = strikesFrom start rest) ∧
      (bs = [] ∧ rest = [] ∨ bs ≠ [] ∧ ∃ tail, rest = .chunk bs :: tail) := by
  fun_induction fillEvents events with
  | case1 =>
    cases call
    exact ⟨rfl, fun _ => rfl, Or.inl ⟨rfl, rfl⟩⟩
  | case2 tail ih => exact ih call
  | case3 b bs tail =>
    cases call
    exact ⟨rfl, fun _ => rfl, Or.inr ⟨List.cons_ne_nil b bs, tail, rfl⟩⟩
  | case4 => simp at call

theorem fillEvents_failed {events rest : List Event} {e : StreamError}
    (call : fillEvents events = (.error e, rest)) :
    dropBytes 0 (chunks ⟨events⟩) = dropBytes 0 (chunks ⟨rest⟩) ∧
      ∀ start, strikesFrom start events = start :: strikesFrom start rest := by
  fun_induction fillEvents events with
  | case1 => simp at call
  | case2 tail ih => exact ih call
  | case3 => simp at call
  | case4 e' tail =>
    cases call
    exact ⟨rfl, fun _ => rfl⟩

end Source

namespace Cursor

def strikes (c : Cursor) : List Nat := Source.strikesFrom c.position c.source.events

/-- The chunks in front of a cursor; none of them is empty in front. -/
def ahead (c : Cursor) : List Bytes := Source.dropBytes 0 c.source.chunks

variable {c c' : Cursor} {bs : Bytes} {e : StreamError}

theorem fill_ok (call : fill c = (.ok bs, c')) :
    c'.position = c.position ∧ c'.ahead = c.ahead ∧ c'.strikes = c.strikes ∧
      (bs = [] ∧ c'.source.events = [] ∨
        bs ≠ [] ∧ ∃ tail, c'.source.events = .chunk bs :: tail) := by
  obtain ⟨answer, place⟩ := fill_eq call
  obtain ⟨chunks, strikes, shown⟩ := Source.fillEvents_shown (Source.fill_ok answer)
  exact ⟨place, chunks.symm, by rw [Cursor.strikes, Cursor.strikes, place, strikes], shown⟩

theorem fill_failed (call : fill c = (.error e, c')) :
    c'.position = c.position ∧ c'.ahead = c.ahead ∧ c.strikes = c.position :: c'.strikes := by
  obtain ⟨answer, place⟩ := fill_eq call
  obtain ⟨chunks, strikes⟩ := Source.fillEvents_failed (Source.fill_error answer)
  exact ⟨place, chunks.symm, by rw [Cursor.strikes, Cursor.strikes, place, strikes]⟩

theorem fill_head (call : fill c = (.ok bs, c')) : bs = c.ahead.headD [] := by
  obtain ⟨_, ahead, _, shown⟩ := fill_ok call
  rw [← ahead, Cursor.ahead, Source.chunks]
  rcases shown with ⟨rfl, events⟩ | ⟨some, tail, events⟩
  · rw [events]
    rfl
  · have long : ¬ bs.length ≤ 0 := by
      have := List.length_pos_iff.mpr some
      omega
    simp [events, Source.dropBytes, long]

/-- What was shown is taken from the chunks ahead, and no strike is passed. -/
theorem consume_shown {k : Nat} (call : fill c = (.ok bs, c')) (inside : k ≤ bs.length) :
    (consume c' k).position = c.position + k ∧
      (consume c' k).ahead = Source.dropBytes k c.ahead ∧ (consume c' k).strikes = c.strikes := by
  obtain ⟨place, ahead, strikes, shown⟩ := fill_ok call
  obtain ⟨⟨events⟩, position⟩ := c'
  obtain rfl : position = c.position := place
  refine ⟨rfl, ?_, ?_⟩
  · rw [← ahead]
    rcases shown with ⟨rfl, rfl⟩ | ⟨_, tail, rfl⟩
    · rfl
    · show Source.dropBytes 0 (bs.drop k :: Source.chunks ⟨tail⟩) =
        Source.dropBytes k (Source.dropBytes 0 (bs :: Source.chunks ⟨tail⟩))
      rw [Source.dropBytes_drop inside, ← Source.dropBytes_add, Nat.zero_add]
  · rw [← strikes]
    rcases shown with ⟨rfl, rfl⟩ | ⟨_, tail, rfl⟩
    · rfl
    · show Source.strikesFrom (c.position + k + (bs.drop k).length) tail =
        Source.strikesFrom (c.position + bs.length) tail
      rw [List.length_drop]
      congr 1
      omega

theorem le_of_mem_strikes (call : fill c = (.ok bs, c')) {p : Nat} (h : p ∈ c.strikes) :
    c.position + bs.length ≤ p := by
  obtain ⟨place, _, strikes, shown⟩ := fill_ok call
  rw [← strikes] at h
  rcases shown with ⟨rfl, events⟩ | ⟨_, tail, events⟩
  · simp [Cursor.strikes, events, Source.strikesFrom] at h
  · rw [Cursor.strikes, events, place] at h
    exact Source.le_of_mem_strikesFrom h

theorem fillOn_last (call : Peekable.fillOn c = (.ok bs, c')) :
    ∃ last, fill last = (.ok bs, c') := by
  fun_induction Peekable.fillOn c with
  | case1 c bs next answer =>
    cases call
    exact ⟨c, answer⟩
  | case2 c e next answer again ih => exact ih call
  | case3 => simp at call

/-- Behind blank bytes that were skipped, the next byte is in sight, so there is no failure in front
of it. -/
theorem lt_of_mem_strikes_skipBlank {n : Nat} (call : Line.skipBlank c = (.ok n, c')) {p : Nat}
    (h : p ∈ c'.strikes) : c'.position < p := by
  fun_induction Line.skipBlank c generalizing n with
  | case1 => simp at call
  | case2 c next answer =>
    cases call
    obtain ⟨last, filled⟩ := fillOn_last answer
    rcases (fill_ok filled).2.2.2 with ⟨_, events⟩ | ⟨some, _⟩
    · simp [Cursor.strikes, events, Source.strikesFrom] at h
    · exact absurd rfl some
  | case3 c b bs next answer blank =>
    rename_i found
    cases call
    obtain ⟨last, filled⟩ := fillOn_last answer
    obtain ⟨place, _, still⟩ := consume_shown filled
      (show blank.length ≤ (b :: bs).length from Nat.le_of_lt found)
    have behind := le_of_mem_strikes filled (still ▸ h)
    show (consume next blank.length).position < p
    rw [place]
    have : blank.length < (b :: bs).length := found
    omega
  | case4 c b bs next answer blank absent more last rest =>
    rename_i ih
    cases call
    exact ih rest
  | case5 => simp at call

theorem read_shown {n : Nat} (call : read c n = (.ok bs, c')) :
    n = 0 ∧ bs = [] ∧ c' = c ∨
      ∃ shown next, 0 < n ∧ fill c = (.ok shown, next) ∧ bs = shown.take n ∧
        c' = consume next bs.length := by
  obtain ⟨answer, place⟩ := read_ok call
  obtain ⟨source, position⟩ := c'
  rcases Source.read_ok answer with ⟨rfl, rfl, rfl⟩ | ⟨shown, next, some, filled, rfl, rfl⟩
  · obtain rfl : position = c.position := place
    exact Or.inl ⟨rfl, rfl, rfl⟩
  · refine Or.inr ⟨shown, ⟨next, c.position⟩, some, ?_, rfl, ?_⟩
    · simp only [fill, filled]
    · obtain rfl : position = c.position + (shown.take n).length := place
      rw [consume, ← Source.consume_take filled]

theorem read_of_fill {shown : Bytes} {n : Nat} (some : 0 < n) (call : fill c = (.ok shown, c')) :
    read c n = (.ok (shown.take n), consume c' (shown.take n).length) := by
  obtain ⟨answer, place⟩ := fill_eq call
  have taken : c.source.read n = (.ok (shown.take n), c'.source.consume n) := by
    rw [Source.read, if_neg (Nat.ne_of_gt some)]
    simp only [answer]
  rw [read, taken, consume, ← Source.consume_take answer, place]

theorem read_failed {n : Nat} (call : read c n = (.error e, c')) : fill c = (.error e, c') := by
  obtain ⟨answer, place⟩ := read_error call
  obtain ⟨source, position⟩ := c'
  obtain rfl : position = c.position := place
  simp only [fill, Source.read_error answer]

/-- A cursor in a source with these chunks and strikes, which has `d` still to come. -/
structure On (chunks : List Bytes) (strikes : List Nat) (total : Nat) (c : Cursor) (d : Bytes) :
    Prop where
  holds : c.Holds (fun _ => True) total d
  ahead : c.ahead = Source.dropBytes c.position chunks
  strikes : c.strikes <:+ strikes

theorem on_start (source : Source) :
    On source.chunks source.strikes source.bytes.length { source } source.bytes where
  holds := ⟨⟨rfl, fun _ _ => trivial⟩, Nat.zero_add _⟩
  ahead := rfl
  strikes := List.suffix_rfl

variable {chunks : List Bytes} {strikes : List Nat} {total : Nat} {d : Bytes}

/-- The strikes that are left are all there are from now on. -/
theorem On.narrow (h : On chunks strikes total c d) : On chunks c.strikes total c d :=
  ⟨h.holds, h.ahead, List.suffix_rfl⟩

theorem On.consume {rest : Bytes} {k : Nat} (h : On chunks strikes total c d)
    (call : fill c = (.ok bs, c')) (inside : k ≤ bs.length)
    (left : (Cursor.consume c' k).Holds (fun _ => True) total rest) :
    On chunks strikes total (Cursor.consume c' k) rest := by
  obtain ⟨place, ahead, still⟩ := consume_shown call inside
  refine ⟨left, ?_, by rw [still]; exact h.strikes⟩
  rw [ahead, place, Source.dropBytes_add, h.ahead]

theorem On.fail (h : On chunks strikes total c d) (call : fill c = (.error e, c')) :
    On chunks strikes total c' d := by
  obtain ⟨place, ahead, struck⟩ := fill_failed call
  refine ⟨((tracks _ total).unseen h.holds call).2, by rw [ahead, place, h.ahead], ?_⟩
  have all := h.strikes
  rw [struck] at all
  exact (List.suffix_cons ..).trans all

theorem On.widen {more : List Nat} (h : On chunks strikes total c d) (part : strikes <:+ more) :
    On chunks more total c d := ⟨h.holds, h.ahead, h.strikes.trans part⟩

theorem places_on (chunks : List Bytes) (strikes : List Nat) (total : Nat) :
    Places (On chunks strikes total) (fun _ => True) total where
  place h := h.holds.2
  tracked :=
    { taken := by
        intro c d n bs c' h call
        obtain ⟨rest, same, left⟩ := (tracks _ total).taken h.holds call
        refine ⟨rest, same, ?_⟩
        rcases read_shown call with ⟨rfl, rfl, rfl⟩ | ⟨shown, next, _, filled, rfl, rfl⟩
        · rw [List.nil_append] at same
          exact same ▸ h
        · exact h.consume filled (List.length_take_le' n shown) left
      ended := fun h some call => (tracks _ total).ended h.holds some call
      failed := fun h call => ⟨trivial, h.fail (read_failed call)⟩
      shown := by
        intro c d bs c' h call
        obtain ⟨front, none, left, after⟩ := (tracks _ total).shown h.holds call
        obtain ⟨place, ahead, still, _⟩ := fill_ok call
        exact ⟨front, none, ⟨left, by rw [ahead, place, h.ahead], by rw [still]; exact h.strikes⟩,
          fun k inside => h.consume call inside (after k inside)⟩
      unseen := fun h call => ⟨trivial, h.fail call⟩ }

theorem fillOn_failed (call : Peekable.fillOn c = (.error e, c')) :
    c.position ∈ c.strikes ∧ c'.strikes.length < c.strikes.length := by
  fun_induction Peekable.fillOn c with
  | case1 => cases call
  | case2 c e' next answer again ih =>
    obtain ⟨_, _, struck⟩ := fill_failed answer
    rw [struck]
    have fewer := (ih call).2
    simp only [List.mem_cons, List.length_cons, true_or, true_and]
    omega
  | case3 c e' next answer final =>
    cases call
    obtain ⟨_, _, struck⟩ := fill_failed answer
    simp [struck]

/-- Where reading breaks off there is a strike, which is over then. -/
theorem On.breaks {front : Bytes} (h : On chunks strikes total c d)
    (broken : Peekable.Breaks (On chunks strikes total) d front e c') :
    c.position + front.length ∈ strikes ∧ c'.strikes.length < strikes.length ∧
      ∃ rest, d = front ++ rest ∧ On chunks strikes total c' rest := by
  obtain ⟨last, rest, rfl, held, call⟩ := broken
  obtain ⟨struck, fewer⟩ := fillOn_failed call
  have before := h.holds.2
  have there := held.holds.2
  rw [List.length_append] at before
  refine ⟨?_, Nat.lt_of_lt_of_le fewer held.strikes.length_le, rest, rfl, ?_⟩
  · rw [show c.position + front.length = last.position by omega]
    exact held.strikes.subset struck
  · exact ((places_on chunks strikes total).tracked.fillOn_error held call).2.2

end Cursor
end WebArchive
