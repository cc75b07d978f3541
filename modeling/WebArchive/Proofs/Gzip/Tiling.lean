import WebArchive.Proofs.Archive.Refinement
import WebArchive.Proofs.Gzip.Stray

/-!
Members tile their container. However the members are read, as long as no call fails, each begins
where the one before it ends, and at the end of the container they have covered it. Main facts:
`Standing.step`, what one call preserves, and `tiled_run`.
-/
namespace WebArchive.Gzip

namespace MemberText

theorem totalLength_entry (t : MemberText) (index offset : Nat) :
    (t.entry index offset).totalLength = some t.bytes.length := by
  show some (t.head.bytes.length + t.packed.length + Member.trailerLength) = _
  rw [bytes, List.length_append, List.length_append, t.whole, Nat.add_assoc]

theorem getElem?_entries (index offset : Nat) (texts : List MemberText) (i : Nat) :
    (entries index offset texts)[i]? = texts[i]?.map fun t =>
      t.entry (index + i) (offset + ((texts.take i).flatMap (·.bytes)).length) := by
  induction texts generalizing index offset i with
  | nil => simp [entries]
  | cons t texts ih =>
    cases i with
    | zero => simp [entries]
    | succ i =>
      have place : index + 1 + i = index + (i + 1) := by omega
      simp only [entries, List.getElem?_cons_succ, ih, place, List.take_succ_cons,
        List.flatMap_cons, List.length_append, Nat.add_assoc]

theorem entries_concat (index offset : Nat) (texts : List MemberText) (t : MemberText) :
    entries index offset (texts ++ [t]) = entries index offset texts ++
      [t.entry (index + texts.length) (offset + (texts.flatMap (·.bytes)).length)] := by
  induction texts generalizing index offset with
  | nil => rfl
  | cons first texts ih =>
    have place : index + 1 + texts.length = index + (texts.length + 1) := by omega
    simp only [List.cons_append, entries, ih, place, List.length_cons, List.flatMap_cons,
      List.length_append, Nat.add_assoc]

theorem totalLength_entries (index offset : Nat) (texts : List MemberText) :
    (entries index offset texts).map (·.totalLength) = texts.map fun t => some t.bytes.length := by
  induction texts generalizing index offset with
  | nil => rfl
  | cons t texts ih => rw [entries, List.map_cons, List.map_cons, ih, totalLength_entry]

theorem length_flatMap (texts : List MemberText) :
    (texts.flatMap (·.bytes)).length = (texts.map (·.bytes.length)).foldr (· + ·) 0 := by
  induction texts with
  | nil => rfl
  | cons t texts ih =>
    rw [List.flatMap_cons, List.length_append, ih, List.map_cons, List.foldr_cons]

end MemberText

namespace Container

theorem last_next {c : Container} (idle : c.current = none) : c.next.2.last = c.last := by
  rw [next_idle idle, begin]
  split <;> rfl

/-- The entry that is handed out when a member is finished can still be asked for later. -/
theorem last_finish {c c' : Container} {m : Member} (call : c.finish = (.ok (some m), c')) :
    c'.last = some m := by
  obtain ⟨_, next, _, call⟩ := Outcome.andThen_eq_ok.mp call
  simp only [Prod.mk.injEq, Except.ok.injEq] at call
  obtain ⟨member, rfl⟩ := call
  obtain ⟨m', current, rfl⟩ := Option.map_eq_some_iff.mp member
  rw [retire, current]

theorem read_idle {c : Container} (idle : c.current = none) (n : Nat) : c.read n = (.ok [], c) := by
  obtain ⟨input, count, current, last, notices⟩ := c
  subst idle
  rfl

theorem Inside.inProgress {E : StreamError → Prop} {t : MemberText} {index offset total : Nat}
    {behind d : Bytes} {c : Container} (h : Inside E t index offset total behind c d) :
    c.inProgress = true := by
  obtain ⟨_, m, current, _⟩ := h
  rw [Container.inProgress, current]
  rfl

/-- What a caller does with a container. A member that is not read to its end when the next one is
asked for is abandoned. -/
inductive Call where
  | next
  | read (n : Nat)
  | finish

/-- A container in use, and the entries of all members that are over. -/
structure Tour where
  container : Container
  finished : List Member := []
  /-- there was no other member when it was asked for the last time -/
  isOver : Bool := false

namespace Tour

def start (source : Source) : Tour := { container := .start source }

/-- The entries of all members begun so far; that of the member in progress comes last. -/
def members (s : Tour) : List Member :=
  s.finished ++ (s.container.current.map (·.member)).toList

/-- The member that was in progress, if there was one, is over when the next one begins, and the
container keeps its entry. -/
def step (s : Tour) : Call → Except Error Tour
  | .next =>
    match s.container.next with
    | (.error e, _) => .error e
    | (.ok m, c) => .ok
        { container := c
          finished := s.finished ++ if s.container.inProgress then c.last.toList else []
          isOver := m.isNone }
  | .read n =>
    match s.container.read n with
    | (.error e, _) => .error (.stream e)
    | (.ok _, c) => .ok { s with container := c }
  | .finish =>
    match s.container.finish with
    | (.error e, _) => .error (.stream e)
    | (.ok m, c) => .ok { s with container := c, finished := s.finished ++ m.toList }

/-- Calls one after the other, up to the first that fails. -/
def run (s : Tour) : List Call → Except Error Tour
  | [] => .ok s
  | call :: calls =>
    match s.step call with
    | .error e => .error e
    | .ok s => s.run calls

/-- Every member has the next index, and begins where the one before it ends. They are all that
were begun. When there is no other member, they have covered all of `bytes`. -/
structure Tiled (bytes : Bytes) (s : Tour) : Prop where
  content : ∃ (texts : List MemberText) (rest : Bytes), bytes = texts.flatMap (·.bytes) ++ rest ∧
    s.finished = MemberText.entries 0 0 texts
  index : ∀ (i : Nat) (m : Member), s.members[i]? = some m → m.index = i
  first : ∀ m : Member, s.members[0]? = some m → m.offset = 0
  behind : ∀ (i : Nat) (m m' : Member), s.members[i]? = some m → s.members[i + 1]? = some m' →
    ∃ length, m.totalLength = some length ∧ m'.offset = m.offset + length
  count : s.container.count = s.members.length
  ended : s.isOver → s.container.position = bytes.length ∧
    ∃ lengths : List Nat, s.members.map (·.totalLength) = lengths.map some ∧
      bytes.length = lengths.foldr (· + ·) 0

/-- Where a container stands whose bytes are `texts` and then `tail`: in front of a member or
behind the last, in one of them, or in a member in the tail, which never ends. -/
inductive Standing (E : StreamError → Prop) (texts : List MemberText) (tail : Bytes) : Tour → Prop
  | between {c : Container} {passed left : List MemberText} {isOver : Bool}
      (split : texts = passed ++ left)
      (idle : Between E passed.length (texts.flatMap (·.bytes) ++ tail).length
        (left.flatMap (·.bytes) ++ tail) c)
      (ended : isOver → left = [] ∧ tail = []) :
      Standing E texts tail ⟨c, MemberText.entries 0 0 passed, isOver⟩
  | inside {c : Container} {passed left : List MemberText} {t : MemberText} {d : Bytes}
      (split : texts = passed ++ t :: left)
      (inside : Inside E t passed.length (passed.flatMap (·.bytes)).length
        (texts.flatMap (·.bytes) ++ tail).length (left.flatMap (·.bytes) ++ tail) c d) :
      Standing E texts tail ⟨c, MemberText.entries 0 0 passed, false⟩
  | stray {c : Container}
      (stray : Stray E tail texts.length (texts.flatMap (·.bytes)).length
        (texts.flatMap (·.bytes) ++ tail).length c) :
      Standing E texts tail ⟨c, MemberText.entries 0 0 texts, false⟩

namespace Standing
variable {E : StreamError → Prop} {texts : List MemberText} {tail : Bytes} {s s' : Tour}

theorem begun (quiet : Quiet E) (bare : Bare tail) {c c' : Container}
    {passed left : List MemberText} {m : Option Member} (split : texts = passed ++ left)
    (idle : Between E passed.length (texts.flatMap (·.bytes) ++ tail).length
      (left.flatMap (·.bytes) ++ tail) c) (call : c.next = (.ok m, c')) :
    Standing E texts tail ⟨c', MemberText.entries 0 0 passed, m.isNone⟩ := by
  subst split
  have place : c.position = (passed.flatMap (·.bytes)).length := by
    have here := idle.place
    simp only [List.flatMap_append, List.length_append] at here
    omega
  cases left with
  | cons t left =>
    rw [List.flatMap_cons, List.append_assoc] at idle
    obtain ⟨_, answer, inside⟩ := next_member quiet idle
    obtain ⟨rfl, rfl⟩ := Outcome.ok_inj call answer
    exact .inside rfl (place ▸ inside)
  | nil =>
    simp only [List.flatMap_nil, List.nil_append, List.append_nil] at idle ⊢
    by_cases last : tail = []
    · subst last
      obtain ⟨_, answer, _, idle⟩ := next_end quiet idle
      obtain ⟨rfl, rfl⟩ := Outcome.ok_inj call answer
      exact .between (List.append_nil passed).symm idle fun _ => ⟨rfl, rfl⟩
    · rcases next_bare quiet idle last with ⟨_, _, answer⟩ | ⟨_, _, answer, stray⟩
      · exact absurd answer (Outcome.ne_error call)
      · obtain ⟨rfl, rfl⟩ := Outcome.ok_inj call answer
        exact .stray (place ▸ stray)

theorem finished (quiet : Quiet E) {c : Container} {passed left : List MemberText} {t : MemberText}
    {d : Bytes} (inside : Inside E t passed.length (passed.flatMap (·.bytes)).length
      (texts.flatMap (·.bytes) ++ tail).length (left.flatMap (·.bytes) ++ tail) c d) :
    ∃ m c', c.finish = (.ok (some m), c') ∧
      MemberText.entries 0 0 passed ++ [m] = MemberText.entries 0 0 (passed ++ [t]) ∧
      Between E (passed ++ [t]).length (texts.flatMap (·.bytes) ++ tail).length
        (left.flatMap (·.bytes) ++ tail) c' := by
  obtain ⟨c', answer, idle⟩ := finish_eq quiet inside
  refine ⟨_, c', answer, ?_, ?_⟩
  · rw [MemberText.entries_concat, Nat.zero_add, Nat.zero_add]
  · rwa [List.length_append]

theorem next (quiet : Quiet E) (bare : Bare tail) (h : Standing E texts tail s)
    {m : Option Member} {c : Container} (call : s.container.next = (.ok m, c)) :
    Standing E texts tail
      ⟨c, s.finished ++ if s.container.inProgress then c.last.toList else [], m.isNone⟩ := by
  cases h with
  | between split idle ended =>
    simp only [inProgress, idle.idle] at call ⊢
    simpa using begun quiet bare split idle call
  | inside split inside =>
    obtain ⟨m', c', answer, entries, idle⟩ := finished quiet inside
    rw [next_finish idle.idle answer] at call
    have last : c.last = some m' := by
      rw [← last_finish answer, ← last_next idle.idle, call]
    simp only [inside.inProgress, if_true, last, Option.toList_some, entries]
    exact begun quiet bare (by simp [split]) idle call
  | stray stray =>
    obtain ⟨_, _, failed⟩ := finish_stray quiet bare stray
    rw [Container.next, failed] at call
    cases call

theorem read (quiet : Quiet E) (bare : Bare tail) (h : Standing E texts tail s) {n : Nat}
    {bs : Bytes} {c : Container} (call : s.container.read n = (.ok bs, c)) :
    Standing E texts tail { s with container := c } := by
  cases h with
  | between split idle ended =>
    obtain ⟨rfl, rfl⟩ := Outcome.ok_inj call (read_idle idle.idle n)
    exact .between split idle ended
  | inside split inside =>
    obtain ⟨_, _, after, _⟩ := read_ok quiet inside call
    exact .inside split after
  | stray stray =>
    exact .stray ((stray_keeps quiet bare).read_of stray call)

theorem finish (quiet : Quiet E) (bare : Bare tail) (h : Standing E texts tail s)
    {m : Option Member} {c : Container} (call : s.container.finish = (.ok m, c)) :
    Standing E texts tail { s with container := c, finished := s.finished ++ m.toList } := by
  cases h with
  | between split idle ended =>
    obtain ⟨rfl, rfl⟩ := Outcome.ok_inj call (finish_idle idle.idle)
    simpa using between split idle ended
  | inside split inside =>
    obtain ⟨_, _, answer, entries, idle⟩ := finished quiet inside
    obtain ⟨rfl, rfl⟩ := Outcome.ok_inj call answer
    simp only [Option.toList_some, entries]
    exact .between (by simp [split]) idle (by simp)
  | stray stray =>
    obtain ⟨_, _, failed⟩ := finish_stray quiet bare stray
    exact absurd failed (Outcome.ne_error call)

/-- No call that succeeds leads away from the members. -/
theorem step (quiet : Quiet E) (bare : Bare tail) (h : Standing E texts tail s) {call : Call}
    (answer : s.step call = .ok s') : Standing E texts tail s' := by
  cases call with
  | next =>
    simp only [Tour.step] at answer
    split at answer <;> cases answer
    rename_i called
    exact h.next quiet bare called
  | read n =>
    simp only [Tour.step] at answer
    split at answer <;> cases answer
    rename_i called
    exact h.read quiet bare called
  | finish =>
    simp only [Tour.step] at answer
    split at answer <;> cases answer
    rename_i called
    exact h.finish quiet bare called

theorem run (quiet : Quiet E) (bare : Bare tail) (h : Standing E texts tail s)
    {calls : List Call} (answer : s.run calls = .ok s') : Standing E texts tail s' := by
  induction calls generalizing s with
  | nil =>
    cases answer
    exact h
  | cons call calls ih =>
    rw [Tour.run] at answer
    split at answer
    · cases answer
    · rename_i called
      exact ih (h.step quiet bare called) answer

theorem exists_next {c : Container} {index total : Nat} {left : List MemberText}
    (idle : Between noError index total (left.flatMap (·.bytes)) c) :
    ∃ m c', c.next = (.ok m, c') := by
  cases left with
  | nil =>
    obtain ⟨c', answer, _⟩ := next_end quiet_noError idle
    exact ⟨_, c', answer⟩
  | cons t left =>
    rw [List.flatMap_cons] at idle
    obtain ⟨c', answer, _⟩ := next_member quiet_noError idle
    exact ⟨_, c', answer⟩

theorem exists_step (h : Standing noError texts [] s) (call : Call) :
    ∃ s', s.step call = .ok s' := by
  cases h with
  | between split idle ended =>
    simp only [List.append_nil] at idle
    cases call with
    | next =>
      obtain ⟨m, c', answer⟩ := exists_next idle
      exact ⟨_, by simp only [Tour.step, answer]; rfl⟩
    | read n => exact ⟨_, by simp only [Tour.step, read_idle idle.idle]; rfl⟩
    | finish => exact ⟨_, by simp only [Tour.step, finish_idle idle.idle]; rfl⟩
  | inside split inside =>
    obtain ⟨m, c₁, finished, _, idle⟩ := finished quiet_noError inside
    simp only [List.append_nil] at idle
    cases call with
    | next =>
      obtain ⟨m, c', answer⟩ := exists_next idle
      rw [← next_finish idle.idle finished] at answer
      exact ⟨_, by simp only [Tour.step, answer]; rfl⟩
    | read n =>
      obtain ⟨_, _, _, answer, _⟩ :=
        (read_cases quiet_noError inside n).resolve_right fun ⟨_, _, _, failed, _⟩ => failed
      exact ⟨_, by simp only [Tour.step, answer]; rfl⟩
    | finish => exact ⟨_, by simp only [Tour.step, finished]; rfl⟩
  | stray stray =>
    obtain ⟨_, head, _, _, _, _, _, whole, _⟩ := stray
    have size := congrArg List.length whole
    have fixed := head.header.length_fixed head.flags
    simp only [HeaderText.bytes, HeaderText.body, List.length_append, List.length_nil] at size
    omega

end Standing

/-- The members that are over are `passed`, and `last` is in progress behind them. -/
structure Lined (bytes : Bytes) (s : Tour) (passed : List MemberText) (last : Option Member) :
    Prop where
  content : ∃ rest, bytes = passed.flatMap (·.bytes) ++ rest
  finished : s.finished = MemberText.entries 0 0 passed
  current : s.container.current.map (·.member) = last
  count : s.container.count = passed.length + last.toList.length
  placed : ∀ m ∈ last, m.index = passed.length ∧ m.offset = (passed.flatMap (·.bytes)).length
  ended : s.isOver → last = none ∧ s.container.position = bytes.length ∧
    bytes = passed.flatMap (·.bytes)

namespace Lined
variable {bytes : Bytes} {s : Tour} {passed : List MemberText} {last : Option Member}

theorem members (h : Lined bytes s passed last) :
    s.members = MemberText.entries 0 0 passed ++ last.toList := by
  rw [Tour.members, h.finished, h.current]

theorem member_cases (h : Lined bytes s passed last) {i : Nat} {m : Member}
    (here : s.members[i]? = some m) :
    (∃ t, passed[i]? = some t ∧ m = t.entry i ((passed.take i).flatMap (·.bytes)).length) ∨
      i = passed.length ∧ last = some m := by
  rw [h.members, List.getElem?_append, MemberText.length_entries] at here
  split at here
  · rw [MemberText.getElem?_entries, Nat.zero_add, Nat.zero_add] at here
    obtain ⟨t, there, rfl⟩ := Option.map_eq_some_iff.mp here
    exact Or.inl ⟨t, there, rfl⟩
  · rename_i behind
    have known := List.getElem?_eq_some_iff.mp here
    cases last with
    | none => simp at here
    | some m' =>
      obtain ⟨inside, same⟩ := known
      simp only [Option.toList_some, List.length_singleton] at inside
      have place : i = passed.length := by omega
      subst place
      simpa using here

theorem member_placed (h : Lined bytes s passed last) {i : Nat} {m : Member}
    (here : s.members[i]? = some m) :
    m.index = i ∧ m.offset = ((passed.take i).flatMap (·.bytes)).length := by
  rcases h.member_cases here with ⟨t, _, rfl⟩ | ⟨rfl, rfl⟩
  · exact ⟨rfl, rfl⟩
  · rw [List.take_length]
    exact h.placed m rfl

theorem tiled (h : Lined bytes s passed last) : Tiled bytes s where
  content := by
    obtain ⟨rest, whole⟩ := h.content
    exact ⟨passed, rest, whole, h.finished⟩
  index i m here := (h.member_placed here).1
  first m here := (h.member_placed here).2
  behind i m m' here next := by
    have place := (h.member_placed next).2
    rcases h.member_cases here with ⟨t, there, rfl⟩ | ⟨rfl, _⟩
    · refine ⟨_, t.totalLength_entry .., ?_⟩
      rw [place, List.take_add_one, there, List.flatMap_append, List.length_append]
      simp [MemberText.entry, MemberText.begun, Member.withTrailer, Member.ofFound]
    · rcases h.member_cases next with ⟨t, there, _⟩ | ⟨absurd, _⟩
      · have inside := (List.getElem?_eq_some_iff.mp there).1
        omega
      · omega
  count := by
    rw [h.members, List.length_append, MemberText.length_entries, h.count]
  ended exhausted := by
    obtain ⟨rfl, position, rfl⟩ := h.ended exhausted
    refine ⟨position, passed.map (·.bytes.length), ?_, MemberText.length_flatMap passed⟩
    rw [h.members, Option.toList_none, List.append_nil, MemberText.totalLength_entries,
      List.map_map]
    rfl

end Lined

theorem Standing.lined {E : StreamError → Prop} {texts : List MemberText} {tail : Bytes} {s : Tour}
    (h : Standing E texts tail s) :
    ∃ passed last, Lined (texts.flatMap (·.bytes) ++ tail) s passed last := by
  cases h with
  | @between c passed left isOver split idle ended =>
    refine ⟨passed, none, ⟨_, by rw [split, List.flatMap_append, List.append_assoc]⟩, rfl,
      by rw [idle.idle]; rfl, idle.count, by simp, fun exhausted => ?_⟩
    obtain ⟨rfl, rfl⟩ := ended exhausted
    exact ⟨rfl, idle.place, by rw [split, List.append_nil, List.append_nil]⟩
  | @inside c passed left t d split inside =>
    obtain ⟨count, m, current, stage⟩ := inside
    have member : m.member = t.begun passed.length (passed.flatMap (·.bytes)).length ∨
        m.member = t.entry passed.length (passed.flatMap (·.bytes)).length :=
      stage.imp (·.member) (·.2.member)
    refine ⟨passed, some m.member, ⟨_, by rw [split, List.flatMap_append, List.append_assoc]⟩, rfl,
      by rw [current]; rfl, count, ?_, by simp⟩
    rintro _ ⟨⟩
    rcases member with begun | ended
    · rw [begun]
      exact ⟨rfl, rfl⟩
    · rw [ended]
      exact ⟨rfl, rfl⟩
  | stray stray =>
    obtain ⟨count, head, m, current, stray⟩ := stray
    refine ⟨texts, some m.member, ⟨_, rfl⟩, rfl, by rw [current]; rfl, count, ?_, by simp⟩
    rintro _ ⟨⟩
    rw [stray.member]
    exact ⟨rfl, rfl⟩

/-- However the members of a container are read, finished or abandoned, they tile it, as long as
no call fails. -/
theorem tiled_run {source : Source} (steady : source.OnlyInterrupted) (calls : List Call) {s : Tour}
    (answer : (start source).run calls = .ok s) : Tiled source.bytes s := by
  obtain ⟨texts, tail, split, bare⟩ := exists_texts source.bytes
  have begun : Standing (·.isInterrupted) texts tail (start source) := by
    have idle := between_of (Source.holds_onlyInterrupted steady)
    rw [split] at idle
    exact .between (List.nil_append texts).symm idle (by simp)
  obtain ⟨passed, last, lined⟩ := (begun.run quiet_interrupted bare answer).lined
  rw [split]
  exact lined.tiled

/-- Where there are only members, no call fails. -/
theorem exists_run {source : Source} (calm : source.failures = []) {texts : List MemberText}
    (same : source.bytes = texts.flatMap (·.bytes)) (calls : List Call) :
    ∃ s, (start source).run calls = .ok s := by
  have begun : Standing noError texts [] (start source) := by
    have idle := between_start calm
    rw [same, ← List.append_nil (texts.flatMap _)] at idle
    exact .between (List.nil_append texts).symm idle (by simp)
  revert begun
  generalize start source = s
  induction calls generalizing s with
  | nil => exact fun _ => ⟨s, rfl⟩
  | cons call calls ih =>
    intro begun
    obtain ⟨s', called⟩ := begun.exists_step call
    obtain ⟨last, answer⟩ := ih s' (begun.step quiet_noError bare_nil called)
    exact ⟨last, by rw [Tour.run, called]; exact answer⟩

/-- The first of two members is abandoned after one byte, the second one finished. -/
theorem tiled_run_pair :
    ∃ s, (start ⟨[.chunk (PackedArchive.memberOf [1, 2]).bytes,
        .chunk (PackedArchive.memberOf []).bytes]⟩).run
          [.next, .read 1, .next, .finish, .next] = .ok s ∧
      Tiled (Source.bytes ⟨[.chunk (PackedArchive.memberOf [1, 2]).bytes,
        .chunk (PackedArchive.memberOf []).bytes]⟩) s := by
  obtain ⟨s, answer⟩ := @exists_run ⟨[.chunk (PackedArchive.memberOf [1, 2]).bytes,
    .chunk (PackedArchive.memberOf []).bytes]⟩ rfl
    [PackedArchive.memberOf [1, 2], PackedArchive.memberOf []] rfl
    [.next, .read 1, .next, .finish, .next]
  exact ⟨s, answer, tiled_run (by simp [Source.OnlyInterrupted, Source.failures]) _ answer⟩

end Tour
end Container
end WebArchive.Gzip
