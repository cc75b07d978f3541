import WebArchive.Proofs.Archive.Ledger
import WebArchive.Proofs.Deflate.Taking
import WebArchive.Proofs.Gzip.HeaderReading

/-!
Any bytes are members, one behind the other, and a tail with no member in front. In that tail a
header may be found, but its member never comes to an end: the data behind it are corrupt or cut
off, or their trailer is. Main facts: `exists_texts`, `Container.next_bare` and `finish_stray`.
-/
namespace WebArchive.Gzip

open Deflate (State)

/-- No member stands in front of these bytes. -/
def Bare (tail : Bytes) : Prop := ∀ t : MemberText, ¬ t.bytes <+: tail

theorem MemberText.length_bytes_pos (t : MemberText) : 0 < t.bytes.length := by
  have fixed := t.head.header.length_fixed t.head.flags
  simp only [bytes, HeaderText.bytes, HeaderText.body, List.length_append]
  omega

theorem bare_nil : Bare [] := by
  intro t front
  exact absurd (List.prefix_nil.mp front) (List.ne_nil_of_length_pos t.length_bytes_pos)

theorem exists_texts (d : Bytes) :
    ∃ (texts : List MemberText) (tail : Bytes),
      d = texts.flatMap (·.bytes) ++ tail ∧ Bare tail := by
  induction size : d.length using Nat.strongRecOn generalizing d with
  | ind n ih =>
    by_cases begun : ∃ t : MemberText, t.bytes <+: d
    · obtain ⟨t, rest, rfl⟩ := begun
      have some := t.length_bytes_pos
      have shorter : rest.length < n := by
        rw [List.length_append] at size
        omega
      obtain ⟨texts, tail, rfl, bare⟩ := ih rest.length shorter rest rfl
      exact ⟨t :: texts, tail, by rw [List.flatMap_cons, List.append_assoc], bare⟩
    · exact ⟨[], d, rfl, not_exists.mp begun⟩

theorem Container.readTrailer_short {E : StreamError → Prop} (quiet : Quiet E) {total : Nat}
    {input : Cursor} {d : Bytes} (held : input.Holds E total d)
    (few : d.length < Member.trailerLength) (m : Inflation) :
    ∃ next, readTrailer input m = (.error .shortRead, (next, m)) ∧ next.Holds E total [] := by
  obtain ⟨next, answer, left⟩ := agrees_readExact (Cursor.tracks E total).toTracks quiet
    Member.trailerLength held
  have short : Readable.readExact d Member.trailerLength = (.error .shortRead, []) := by
    rw [Readable.readExact, Bytes.readFull_eq, List.take_of_length_le (Nat.le_of_lt few),
      List.drop_eq_nil_of_le (Nat.le_of_lt few)]
    simp only [if_pos few]
  dsimp only at answer left
  rw [short] at answer left
  obtain ⟨member, inflater, checksum⟩ := m
  exact ⟨next, by simp only [readTrailer, answer], left⟩

/-- A member with this header is at hand, in front of which no member stands. What was taken behind
the header went through the machine of the inflater, unless that has met corrupt data. -/
structure Inflation.Stray (E : StreamError → Prop) (head : HeaderText) (tail : Bytes)
    (index offset total : Nat) (input : Cursor) (m : Inflation) : Prop where
  member : m.member = .ofFound index offset head.found
  taken : ∃ front d, tail = head.bytes ++ (front ++ d) ∧ input.Holds E total d ∧
    (m.inflater.isCorrupt ∨ m.inflater.machine = front.foldl State.byte {})

namespace Inflation.Stray
variable {E : StreamError → Prop} {head : HeaderText} {tail : Bytes} {index offset total : Nat}

theorem step {n : Nat} {input next : Cursor} {member : Member}
    {inflater after : Deflate.Inflater} {checksum checksum' : Crc32} {shown produced : Bytes}
    {consumed : Nat}
    (h : Stray E head tail index offset total input ⟨member, inflater, checksum⟩)
    (call : Peekable.fill input = (.ok shown, next))
    (step : inflater.step shown n = ⟨produced, consumed, after⟩) :
    Stray E head tail index offset total (Peekable.consume next consumed)
      ⟨member, after, checksum'⟩ := by
  obtain ⟨begun, front, d, whole, held, machine⟩ := h
  obtain ⟨near, _, _, left⟩ := (Cursor.tracks E total).shown held call
  have bound := Deflate.Inflater.consumed_step_le inflater shown n
  have takes := Deflate.Inflater.takes_step inflater shown n
  rw [step] at bound takes
  have seen : shown.take consumed = d.take consumed := by
    obtain ⟨more, rfl⟩ := near
    exact (List.take_append_of_le_length bound).symm
  refine ⟨begun, front ++ d.take consumed, d.drop consumed, ?_, left consumed bound, ?_⟩
  · rw [List.append_assoc, List.take_append_drop, whole]
  · rcases machine with corrupt | machine
    · have again := Deflate.Inflater.isCorrupt_step corrupt shown n
      rw [step] at again
      exact Or.inl again
    · refine takes.imp_right fun after => ?_
      simp only at machine after
      rw [List.foldl_append, ← machine, ← seen]
      exact after

/-- Once the data have come to their end, too few bytes are left for a trailer. -/
theorem ended (bare : Bare tail) {input : Cursor} {m : Inflation}
    (h : Stray E head tail index offset total input m) (ended : m.inflater.isEnded) :
    ∃ front d, tail = head.bytes ++ (front ++ d) ∧ input.Holds E total d ∧
      d.length < Member.trailerLength ∧
      m.inflater.machine = front.foldl State.byte {} ∧ m.inflater.machine.isFinished := by
  obtain ⟨begun, front, d, rfl, held, machine⟩ := h
  simp only [Deflate.Inflater.isEnded, Bool.and_eq_true] at ended
  have sound : m.inflater.isCorrupt = false := State.not_isCorrupt_of_isFinished ended.1
  have machine := machine.resolve_left (by rw [sound]; decide)
  have finished : m.inflater.machine.isFinished := by
    rw [Deflate.Inflater.machine, State.foldl_bit_of_isFinished ended.1]
    exact ended.1
  refine ⟨front, d, rfl, held, Nat.lt_of_not_le fun enough => ?_, machine, finished⟩
  rw [machine] at finished
  obtain ⟨packed, rest, data, rfl, needs⟩ := State.Needs.exists_front finished
  refine bare
    { head, packed, data
      trailer := (rest ++ d).take Member.trailerLength
      encodes := needs
      whole := List.length_take_of_le (by rw [List.length_append]; omega) }
    ⟨(rest ++ d).drop Member.trailerLength, ?_⟩
  simp only [MemberText.bytes, List.append_assoc, List.take_append_drop]

theorem readTrailer (quiet : Quiet E) (bare : Bare tail) {input : Cursor} {m : Inflation}
    (h : Stray E head tail index offset total input m) (ended : m.inflater.isEnded) :
    ∃ e s, Container.readTrailer input m = (.error e, s) ∧
      Stray E head tail index offset total s.1 s.2 := by
  obtain ⟨front, d, rfl, held, few, machine, finished⟩ := h.ended bare ended
  obtain ⟨next, failed, left⟩ := Container.readTrailer_short quiet held few m
  refine ⟨.shortRead, (next, m), failed, h.member, front ++ d, [],
    by rw [List.append_nil], left, Or.inr ?_⟩
  rw [List.foldl_append, ← machine, State.foldl_byte_of_isFinished finished]

theorem inflate (quiet : Quiet E) (bare : Bare tail) {n : Nat} {asked : 0 < n} {input : Cursor}
    {m : Inflation} (h : Stray E head tail index offset total input m) :
    Stray E head tail index offset total (Container.inflate n asked input m).2.1
      (Container.inflate n asked input m).2.2 := by
  fun_induction Container.inflate n asked input m with
  | case1 input member inflater checksum e next call =>
    obtain ⟨begun, front, d, whole, held, machine⟩ := h
    obtain ⟨_, left⟩ := (Cursor.tracks E total).unseen held call
    exact ⟨begun, front, d, whole, left, machine⟩
  | case2 =>
    rename_i call _ _ _ step _ _ _
    exact h.step call step
  | case3 input member inflater checksum shown next call produced consumed after step rest m =>
    rename_i ended
    have after : Stray E head tail index offset total rest m := h.step call step
    obtain ⟨e, s, failed, stray⟩ := after.readTrailer quiet bare ended
    rw [failed]
    exact stray
  | case4 =>
    rename_i call _ _ _ step _ _ _ _ _
    exact h.step call step
  | case5 =>
    rename_i call step
    exact h.step call step
  | case6 =>
    rename_i call _ _ _ step _ _ _ _ _ _ ih
    exact ih (h.step call step)

end Inflation.Stray

namespace Container
variable {E : StreamError → Prop} {tail : Bytes} {index offset total : Nat}

/-- A member is at hand that never comes to its end. -/
structure Stray (E : StreamError → Prop) (tail : Bytes) (index offset total : Nat)
    (c : Container) : Prop where
  count : c.count = index + 1
  stage : ∃ head m, c.current = some m ∧
    Inflation.Stray E head tail index offset total c.input m

theorem stray_keeps (quiet : Quiet E) (bare : Bare tail) :
    Readable.Keeps (Stray E tail index offset total) where
  read {c} n h := by
    show Stray E tail index offset total (read c n).2
    obtain ⟨input, count, _, last, notices⟩ := c
    obtain ⟨counted, head, m, rfl, stray⟩ := h
    by_cases asked : 0 < n ∧ m.member.isComplete = false
    · simp only [read, dif_pos asked]
      exact ⟨counted, head, _, rfl, stray.inflate quiet bare⟩
    · simp only [read, dif_neg asked]
      exact ⟨counted, head, m, rfl, stray⟩

theorem finish_stray (quiet : Quiet E) (bare : Bare tail) {c : Container}
    (h : Stray E tail index offset total c) : ∃ e c', c.finish = (.error e, c') := by
  have keeps : Readable.Keeps (Stray E tail index offset total) := stray_keeps quiet bare
  rcases passed : Readable.pass c passSize with ⟨e | _, c'⟩
  · exact ⟨e, c', by rw [finish, passed]; rfl⟩
  · obtain ⟨last, held, ended⟩ := keeps.pass_ok h passed
    obtain ⟨_, head, m, current, stray⟩ := keeps.read_of held ended
    have complete := isComplete_read (by decide) ended m current
    rw [stray.member] at complete
    exact absurd complete Bool.false_ne_true

/-- Behind the last member no header begins, or one whose member never comes to its end. -/
theorem next_bare (quiet : Quiet E) {c : Container} (h : Between E index total tail c)
    (more : tail ≠ []) :
    (∃ e c', c.next = (.error e, c')) ∨
      ∃ m c', c.next = (.ok (some m), c') ∧ Stray E tail index c.position total c' := by
  rw [next_idle h.idle]
  obtain ⟨rfl, idle, held⟩ := h
  obtain ⟨input, answer, left⟩ := agrees_readHeader (Cursor.tracks E total) quiet c.position held
  rcases read : readHeader c.position tail with ⟨e | _ | found, rest⟩ <;> rw [read] at answer left
  · exact Or.inl ⟨e, _, by simp only [begin, answer]; rfl⟩
  · exact absurd (readHeader_none read) more
  · obtain ⟨head, rfl, rfl⟩ := readHeader_text read
    exact Or.inr ⟨_, _, by simp only [begin, answer]; rfl, rfl, head, _, rfl, rfl, [], rest, rfl,
      left, Or.inr rfl⟩

end Container
end WebArchive.Gzip
