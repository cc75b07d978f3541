import WebArchive.Gzip.Container
import WebArchive.Proofs.Deflate.Delivery
import WebArchive.Proofs.Gzip.HeaderText
import WebArchive.Proofs.Stream.Delivery

/-!
Members as they stand in a container, and what reading them gives. While a member is read, what
its inflater owes and what the cursor holds fit together; `tracks` says that its data come in
order, and `yields_texts` what a run over the whole container gives, whatever is read of each
member.
-/
namespace WebArchive.Gzip

open Deflate (Encodes)

/-- A member as it stands in a container. Its data can be inflated; its trailer may say
anything. -/
structure MemberText where
  head : HeaderText
  packed : Bytes
  data : Bytes
  trailer : Bytes
  encodes : Encodes packed data
  whole : trailer.length = Member.trailerLength

namespace MemberText

def bytes (t : MemberText) : Bytes := t.head.bytes ++ (t.packed ++ t.trailer)

def begun (t : MemberText) (index offset : Nat) : Member := .ofFound index offset t.head.found

def entry (t : MemberText) (index offset : Nat) : Member :=
  (t.begun index offset).withTrailer t.trailer (Crc32.update {} t.data) t.packed.length
    t.data.length

def entries (index offset : Nat) : List MemberText → List Member
  | [] => []
  | t :: texts => t.entry index offset :: entries (index + 1) (offset + t.bytes.length) texts

theorem length_entries (index offset : Nat) (texts : List MemberText) :
    (entries index offset texts).length = texts.length := by
  induction texts generalizing index offset with
  | nil => rfl
  | cons t texts ih => rw [entries, List.length_cons, ih, List.length_cons]

end MemberText

/-- The member at hand still has `d` to hand out, and `behind` comes behind it. -/
structure Inflation.Open (E : StreamError → Prop) (t : MemberText) (index offset total : Nat)
    (behind : Bytes) (input : Cursor) (m : Inflation) (d : Bytes) : Prop where
  member : m.member = t.begun index offset
  given : ∃ front, t.data = front ++ d ∧ m.checksum = Crc32.update {} front ∧
    m.inflater.delivered = front.length
  owed : ∃ z, input.Holds E total (z ++ (t.trailer ++ behind)) ∧ m.inflater.Owes z d ∧
    m.inflater.taken + z.length = t.packed.length

structure Inflation.Over (E : StreamError → Prop) (t : MemberText) (index offset total : Nat)
    (behind : Bytes) (input : Cursor) (m : Inflation) : Prop where
  member : m.member = t.entry index offset
  input : input.Holds E total behind

namespace Container
variable {E : StreamError → Prop} {t : MemberText} {index offset total : Nat} {behind : Bytes}

theorem step_eq {n consumed : Nat} {input next : Cursor} {member : Member}
    {inflater after : Deflate.Inflater} {checksum : Crc32} {shown d produced : Bytes}
    (h : Inflation.Open E t index offset total behind input ⟨member, inflater, checksum⟩ d)
    (call : Peekable.fill input = (.ok shown, next))
    (step : inflater.step shown n = ⟨produced, consumed, after⟩) :
    shown ≠ [] ∧ ∃ d', d = produced ++ d' ∧
      Inflation.Open E t index offset total behind (Peekable.consume next consumed)
        ⟨member, after, checksum.update produced⟩ d' := by
  obtain ⟨begun, ⟨front, given, sum, count⟩, z, held, owed, taken⟩ := h
  obtain ⟨near, none, _, left⟩ := (Cursor.tracks E total).shown held call
  have shows : shown ≠ [] := by
    intro empty
    have length := congrArg List.length (none empty)
    simp only [List.length_append, t.whole, Member.trailerLength, List.length_nil] at length
    omega
  have bound := Deflate.Inflater.consumed_step_le inflater shown n
  obtain ⟨inside, ⟨d', same, still⟩, taken', count'⟩ := owed.step near shows n
  rw [step] at bound inside same still taken' count'
  simp only at sum count taken inside bound same taken' count'
  subst same
  refine ⟨shows, d', rfl, begun, ⟨front ++ produced, ?_, ?_, ?_⟩, z.drop consumed, ?_, still, ?_⟩
  · rw [given, List.append_assoc]
  · rw [sum, Crc32.update_append]
  · rw [List.length_append, ← count]
    exact count'
  · have held := left consumed bound
    rwa [List.drop_append_of_le_length inside] at held
  · show after.taken + (z.drop consumed).length = _
    rw [List.length_drop]
    omega

theorem readTrailer_eq (quiet : Quiet E) {input : Cursor} {m : Inflation} {d : Bytes}
    (h : Inflation.Open E t index offset total behind input m d) (ended : m.inflater.isEnded) :
    d = [] ∧ ∃ s, readTrailer input m = (.ok (), s) ∧
      Inflation.Over E t index offset total behind s.1 s.2 := by
  obtain ⟨begun, ⟨front, given, sum, count⟩, z, held, owed, taken⟩ := h
  obtain ⟨rfl, rfl⟩ := owed.ended ended
  obtain ⟨next, answer, left⟩ := gets_readExact (Cursor.tracks E total).toTracks quiet
    t.whole held
  obtain ⟨member, inflater, checksum⟩ := m
  refine ⟨rfl, (next, ⟨member.withTrailer t.trailer checksum inflater.taken inflater.delivered,
    inflater, checksum⟩), by simp only [readTrailer, answer], ?_, left⟩
  simp only [List.append_nil, List.length_nil, Nat.add_zero] at begun given sum count taken
  show member.withTrailer _ _ _ _ = _
  rw [begun, sum, count, taken, ← given]
  rfl

/-- Inflating hands out the front of what is owed, or comes to the end of the member. A failure
of the stream leaves what is owed as it was. -/
theorem inflate_cases (quiet : Quiet E) {n : Nat} (asked : 0 < n) {input : Cursor} {m : Inflation}
    {d : Bytes} (h : Inflation.Open E t index offset total behind input m d) :
    (∃ bs s d', inflate n asked input m = (.ok bs, s) ∧ d = bs ++ d' ∧
      (bs ≠ [] ∧ Inflation.Open E t index offset total behind s.1 s.2 d' ∨
        d' = [] ∧ Inflation.Over E t index offset total behind s.1 s.2)) ∨
    ∃ e s, inflate n asked input m = (.error e, s) ∧ E e ∧
      Inflation.Open E t index offset total behind s.1 s.2 d := by
  -- the inflater owes data and so is sound, and the trailer is still to come and so in sight: that
  -- leaves a failure, the end, bytes to hand out, or another round
  fun_induction inflate n asked input m generalizing d with
  | case1 input member inflater checksum e next call =>
    obtain ⟨begun, given, z, held, owed, taken⟩ := h
    obtain ⟨possible, left⟩ := (Cursor.tracks E total).unseen held call
    exact Or.inr ⟨e, _, rfl, possible, begun, given, z, left, owed, taken⟩
  | case2 input member inflater checksum shown next call produced consumed after step rest m =>
    rename_i corrupt
    obtain ⟨_, d', rfl, still⟩ := step_eq h call step
    obtain ⟨z, _, owed, _⟩ := still.owed
    exact absurd (owed.sound.symm.trans corrupt) (by decide)
  | case3 input member inflater checksum shown next call produced consumed after step =>
    rename_i ended
    obtain ⟨_, d', rfl, still⟩ := step_eq h call step
    obtain ⟨rfl, s, trailer, last⟩ := readTrailer_eq quiet still ended
    exact Or.inl ⟨produced, s, [], Outcome.map_eq_ok.mpr ⟨(), trailer, rfl⟩, rfl,
      Or.inr ⟨rfl, last⟩⟩
  | case4 input member inflater checksum shown next call produced consumed after step =>
    rename_i some
    obtain ⟨_, d', rfl, still⟩ := step_eq h call step
    exact Or.inl ⟨produced, _, d', rfl, rfl, Or.inl ⟨some, still⟩⟩
  | case5 =>
    rename_i call step
    exact absurd rfl (step_eq h call step).1
  | case6 input member inflater checksum shown next call produced consumed after step =>
    rename_i none _ ih
    obtain ⟨_, d', rfl, still⟩ := step_eq h call step
    rw [ne_eq, Classical.not_not] at none
    subst none
    exact ih still

/-- The container stands in a member that still has `d` to hand out. -/
structure Inside (E : StreamError → Prop) (t : MemberText) (index offset total : Nat)
    (behind : Bytes) (c : Container) (d : Bytes) : Prop where
  count : c.count = index + 1
  stage : ∃ m, c.current = some m ∧
    (Inflation.Open E t index offset total behind c.input m d ∨
      d = [] ∧ Inflation.Over E t index offset total behind c.input m)

/-- The container stands in front of a member, with `d` to come in all. -/
structure Between (E : StreamError → Prop) (index total : Nat) (d : Bytes) (c : Container) :
    Prop where
  count : c.count = index
  idle : c.current = none
  input : c.input.Holds E total d

theorem Between.place {d : Bytes} {c : Container} (h : Between E index total d c) :
    c.position + d.length = total := h.input.2

theorem between_of {source : Source} {d : Bytes} (h : source.Holds E d) :
    Between E 0 d.length d (start source) := ⟨rfl, rfl, h, Nat.zero_add _⟩

theorem between_start {source : Source} (calm : source.failures = []) :
    Between noError 0 source.bytes.length source.bytes (start source) :=
  between_of (Source.holds_noError calm)

/-- A read gives the front of the data, or fails and leaves them as they were. One that asks for
something and gets nothing has completed the member. -/
theorem read_cases (quiet : Quiet E) {c : Container} {d : Bytes}
    (h : Inside E t index offset total behind c d) (n : Nat) :
    (∃ bs c' d', read c n = (.ok bs, c') ∧ d = bs ++ d' ∧
      Inside E t index offset total behind c' d' ∧
      (0 < n → bs = [] → d' = [] ∧ ∃ m, c'.current = some m ∧
        Inflation.Over E t index offset total behind c'.input m)) ∨
    ∃ e c', read c n = (.error e, c') ∧ E e ∧ Inside E t index offset total behind c' d := by
  obtain ⟨input, count, current, last, notices⟩ := c
  obtain ⟨counted, m, rfl, stage⟩ := h
  rcases stage with opened | ⟨rfl, ended⟩
  · by_cases asked : 0 < n
    · have going : m.member.isComplete = false := by
        rw [opened.member]
        rfl
      rcases inflate_cases quiet asked opened with ⟨bs, s, d', answer, rfl, after⟩ |
        ⟨e, s, answer, possible, still⟩
      · refine Or.inl ⟨bs, ⟨s.1, count, some s.2, last, notices ++
          if s.2.member.isComplete then s.2.member.trailerNotices else []⟩, d', ?_, rfl,
          ⟨counted, s.2, rfl, after.imp_left And.right⟩, fun _ none => ?_⟩
        · simp only [read, dif_pos (And.intro asked going), answer, Outcome.within]
        rcases after with ⟨some, _⟩ | ⟨rfl, ended⟩
        · exact absurd none some
        · exact ⟨rfl, s.2, rfl, ended⟩
      · refine Or.inr ⟨e, ⟨s.1, count, some s.2, last, notices ++
          if s.2.member.isComplete then s.2.member.trailerNotices else []⟩, ?_, possible,
          counted, s.2, rfl, Or.inl still⟩
        simp only [read, dif_pos (And.intro asked going), answer, Outcome.within]
    · exact Or.inl ⟨[], _, d, by simp only [read, asked, false_and, dite_false], rfl,
        ⟨counted, m, rfl, Or.inl opened⟩, fun some => absurd some asked⟩
  · have done : m.member.isComplete = true := by
      rw [ended.member]
      rfl
    exact Or.inl ⟨[], _, [],
      by simp only [read, done, Bool.true_eq_false, and_false, dite_false], rfl,
      ⟨counted, m, rfl, Or.inr ⟨rfl, ended⟩⟩, fun _ _ => ⟨rfl, m, rfl, ended⟩⟩

theorem read_ok (quiet : Quiet E) {c c' : Container} {d bs : Bytes} {n : Nat}
    (h : Inside E t index offset total behind c d) (call : read c n = (.ok bs, c')) :
    ∃ d', d = bs ++ d' ∧ Inside E t index offset total behind c' d' ∧
      (0 < n → bs = [] → d' = [] ∧ ∃ m, c'.current = some m ∧
        Inflation.Over E t index offset total behind c'.input m) := by
  rcases read_cases quiet h n with ⟨_, _, d', answer, rest⟩ | ⟨_, _, answer, _⟩
  · obtain ⟨rfl, rfl⟩ := Outcome.ok_inj call answer
    exact ⟨d', rest⟩
  · exact absurd answer (Outcome.ne_error call)

theorem tracks (quiet : Quiet E) (t : MemberText) (index offset total : Nat) (behind : Bytes) :
    Readable.Tracks (σ := Container) (Inside E t index offset total behind) E where
  taken := by
    intro c d n bs c' h call
    obtain ⟨d', same, after, _⟩ := read_ok quiet h call
    exact ⟨d', same, after⟩
  ended := by
    intro c d n c' h some call
    obtain ⟨d', rfl, _, last⟩ := read_ok quiet h call
    exact (last some rfl).1
  failed := by
    intro c d n e c' h call
    rcases read_cases quiet h n with ⟨_, _, _, answer, _⟩ | ⟨_, _, answer, possible, after⟩
    · exact absurd call (Outcome.ne_error answer)
    · cases answer.symm.trans call
      exact ⟨possible, after⟩

theorem finish_eq (quiet : Quiet E) {c : Container} {d : Bytes}
    (h : Inside E t index offset total behind c d) :
    ∃ c', c.finish = (.ok (some (t.entry index offset)), c') ∧
      Between E (index + 1) total behind c' := by
  obtain ⟨last, c', passed, inside, ended⟩ :=
    (tracks quiet t index offset total behind).pass_eq quiet h (show 0 < passSize by decide)
  obtain ⟨d', _, after, done⟩ := read_ok quiet inside ended
  obtain ⟨_, m, current, ended⟩ := done (by decide) rfl
  refine ⟨c'.retire, ?_, ?_⟩
  · simp only [finish, passed, Outcome.andThen, current, Option.map_some, ended.member]
  · rw [retire, current]
    exact ⟨after.count, rfl, ended.input⟩

theorem finish_idle {c : Container} (idle : c.current = none) : c.finish = (.ok none, c) := by
  obtain ⟨input, count, current, last, notices⟩ := c
  subst idle
  have answer : Readable.readOn (⟨input, count, none, last, notices⟩ : Container) passSize =
      (.ok [], ⟨input, count, none, last, notices⟩) := by
    rw [Readable.readOn]
    rfl
  have passed : Readable.pass (⟨input, count, none, last, notices⟩ : Container) passSize =
      (.ok (), ⟨input, count, none, last, notices⟩) := by
    rw [Readable.pass]
    split <;> rename_i call <;> cases answer.symm.trans call
    rfl
  rw [finish, passed]
  rfl

theorem next_idle {c : Container} (idle : c.current = none) : c.next = c.begin := by
  rw [next, finish_idle idle]
  rfl

theorem next_head (quiet : Quiet E) {c : Container} {text : HeaderText} {d : Bytes}
    (idle : c.current = none) (held : c.input.Holds E total (text.bytes ++ d)) :
    ∃ c', c.next = (.ok (some (.ofFound c.count c.position text.found)), c') ∧
      c'.count = c.count + 1 ∧
      c'.current = some { member := .ofFound c.count c.position text.found } ∧
      c'.input.Holds E total d := by
  rw [next_idle idle]
  obtain ⟨input, found, left⟩ := text.gets_readHeader (Cursor.tracks E total) quiet c.position held
  exact ⟨_, by simp only [begin, found]; rfl, rfl, rfl, left⟩

theorem next_member (quiet : Quiet E) {c : Container}
    (h : Between E index total (t.bytes ++ behind) c) :
    ∃ c', c.next = (.ok (some (t.begun index c.position)), c') ∧
      Inside E t index c.position total behind c' t.data := by
  obtain ⟨rfl, idle, held⟩ := h
  rw [MemberText.bytes, List.append_assoc] at held
  obtain ⟨c', answer, count, current, left⟩ := next_head quiet idle held
  rw [List.append_assoc] at left
  refine ⟨c', answer, count, _, current, Or.inl ⟨rfl, ?_, ?_⟩⟩
  · exact ⟨[], rfl, rfl, rfl⟩
  · exact ⟨t.packed, left, Deflate.Inflater.owes_start t.encodes, Nat.zero_add _⟩

theorem next_end (quiet : Quiet E) {c : Container} (h : Between E index total [] c) :
    ∃ c', c.next = (.ok none, c') ∧ c'.position = total ∧ Between E index total [] c' := by
  rw [next_idle h.idle]
  obtain ⟨counted, idle, held⟩ := h
  obtain ⟨input, found, left⟩ := readHeader_end (Cursor.tracks E total).toTracks quiet
    c.position held
  exact ⟨{ c with input }, by simp only [begin, found], left.2, counted, idle, left⟩

/-- It makes no difference whether a member is finished before the next one is asked for. -/
theorem next_finish {c c' : Container} {entry : Option Member} (idle : c'.current = none)
    (finished : c.finish = (.ok entry, c')) : c.next = c'.next := by
  rw [next_idle idle, next, finished]
  rfl

/-! ### Runs -/

/-- Reads of some sizes, one after the other, and all they hand out. -/
def readEach (c : Container) : List Nat → Answer Container Bytes
  | [] => (.ok [], c)
  | n :: sizes => (c.read n).andThen fun bs c => (c.readEach sizes).map (bs ++ ·)

/-- A run over a container, in which reads of some sizes are made in each member, gives members
with these data and entries in order, and then none, again and again. A member that is left early
is read to its end. -/
def Yields (ended : Container → Prop) :
    List (Bytes × Member) → Container → List (List Nat) → Prop
  | _, _, [] => True
  | [], c, _ :: uses => ∃ c', c.next = (.ok none, c') ∧ ended c' ∧ Yields ended [] c' uses
  | (data, entry) :: members, c, sizes :: uses =>
    ∃ c₁ bs c₂ c₃, c.next = (.ok (some { entry with ending := none }), c₁) ∧
      (∃ c', Readable.readAll c₁ = (.ok data, c')) ∧
      c₁.readEach sizes = (.ok bs, c₂) ∧ bs <+: data ∧
      (∀ n c', 0 < n → c₂.read n = (.ok [], c') → bs = data) ∧
      c₂.finish = (.ok (some entry), c₃) ∧ c₂.next = c₃.next ∧ Yields ended members c₃ uses

theorem readEach_eq {c : Container} {d : Bytes}
    (h : Inside noError t index offset total behind c d) (sizes : List Nat) :
    ∃ bs c' d', c.readEach sizes = (.ok bs, c') ∧ d = bs ++ d' ∧
      Inside noError t index offset total behind c' d' := by
  induction sizes generalizing c d with
  | nil => exact ⟨[], c, d, rfl, rfl, h⟩
  | cons n sizes ih =>
    obtain ⟨bs, c₁, _, answer, rfl, after, _⟩ :=
      (read_cases quiet_noError h n).resolve_right fun ⟨_, _, _, failed, _⟩ => failed
    obtain ⟨more, c₂, d', answers, rfl, last⟩ := ih after
    refine ⟨bs ++ more, c₂, d', ?_, (List.append_assoc ..).symm, last⟩
    simp only [readEach, answer, Outcome.andThen]
    exact Outcome.map_eq_ok.mpr ⟨more, answers, rfl⟩

theorem yields_texts {texts : List MemberText} {c : Container}
    (h : Between noError index total (texts.flatMap (·.bytes)) c) (uses : List (List Nat)) :
    Yields (·.position = total)
      ((texts.map (·.data)).zip (MemberText.entries index c.position texts)) c uses := by
  induction uses generalizing texts c index with
  | nil => cases (texts.map (·.data)).zip (MemberText.entries index c.position texts) <;> trivial
  | cons sizes uses ih =>
    cases texts with
    | nil =>
      obtain ⟨c', answer, last, after⟩ := next_end quiet_noError h
      have after :
        Between noError index total (([] : List MemberText).flatMap (·.bytes)) c' := after
      exact ⟨c', answer, last, ih after⟩
    | cons t texts =>
      rw [List.flatMap_cons] at h
      obtain ⟨c₁, answer, inside⟩ := next_member quiet_noError h
      have tracks := tracks quiet_noError t index c.position total (texts.flatMap (·.bytes))
      obtain ⟨last, all, _⟩ := tracks.readAll_eq quiet_noError inside Readable.Demand.isOpen_start
      obtain ⟨bs, c₂, d, answers, given, inside⟩ := readEach_eq inside sizes
      obtain ⟨c₃, finished, after⟩ := finish_eq quiet_noError inside
      have place : c₃.position = c.position + t.bytes.length := by
        have before := h.place
        have behind := after.place
        rw [List.length_append] at before
        omega
      have rest := ih after
      rw [place] at rest
      refine ⟨c₁, bs, c₂, c₃, answer, ⟨last, all⟩, answers,
        ⟨d, given.symm⟩, fun n c' some none => ?_, finished, next_finish after.idle finished, rest⟩
      obtain rfl := tracks.ended inside some none
      exact (given.trans (List.append_nil bs)).symm

end Container
end WebArchive.Gzip
