import WebArchive.Proofs.Deflate.Compression
import WebArchive.Proofs.Deflate.CutOff
import WebArchive.Proofs.Gzip.Stray

/-!
Members that are cut short behind their header. The reads up to the first failure hand out what
can be inflated of the bytes that are there, but for the bytes of the call that fails in the trailer
and for a few that are only decided once the input is at its end. Main fact: `Container.read_cut`.
-/
namespace WebArchive.Gzip

open Deflate (Encodes State Inflater)

/-- What stands behind a header is cut short. -/
structure Cut where
  packed : Bytes
  data : Bytes
  trailer : Bytes
  front : Bytes
  missing : Bytes
  encodes : Encodes packed data
  whole : trailer.length = Member.trailerLength
  split : front ++ missing = packed ++ trailer
  short : missing ≠ []

namespace Cut

/-- All that can be inflated of the bytes that are there. -/
def given (cut : Cut) : Bytes := (Deflate.inflate cut.front).output.toList

/-- What is lost when a read of `n` bytes fails at the cut, and how it fails. The reads are `ample`
if each of them asks for as many bytes as may be decided at the end of the input. -/
inductive Loses (cut : Cut) (ample : Prop) (n : Nat) : StreamError → Bytes → Prop
  | inData {lost : Bytes} (inside : cut.trailer.length < cut.missing.length)
      (few : lost.length < State.maxGrowth)
      (late : cut.given.length ≤ Inflater.window → lost = []) (all : ample → lost = []) :
      Loses cut ample n .truncatedMember lost
  | inTrailer {lost : Bytes} (behind : cut.missing.length ≤ cut.trailer.length)
      (last : lost.length ≤ n) : Loses cut ample n .shortRead lost

variable {cut : Cut} {taken rest z : Bytes}

theorem behind_eq (front : cut.front = taken ++ rest) (packed : cut.packed = taken ++ z) :
    rest ++ cut.missing = z ++ cut.trailer := by
  have split := cut.split
  rw [front, packed, List.append_assoc, List.append_assoc] at split
  exact List.append_cancel_left split

theorem take_eq (front : cut.front = taken ++ rest) (packed : cut.packed = taken ++ z) {k : Nat}
    (there : k ≤ rest.length) (inside : k ≤ z.length) : rest.take k = z.take k := by
  have same := congrArg (List.take k) (behind_eq front packed)
  rwa [List.take_append_of_le_length there, List.take_append_of_le_length inside] at same

end Cut

variable {cut : Cut} {total : Nat} {ample : Prop} {got : Bytes}

/-- The member at hand has handed out `got`, and owes the rest of its data although it will not
find all of them. -/
structure Inflation.Short (cut : Cut) (total : Nat) (got : Bytes) (input : Cursor)
    (m : Inflation) : Prop where
  going : m.member.isComplete = false
  roomy : m.inflater.Roomy
  delivered : m.inflater.delivered = got.length
  owed : ∃ taken rest z d, cut.front = taken ++ rest ∧ cut.packed = taken ++ z ∧
    cut.data = got ++ d ∧ input.Holds noError total rest ∧ m.inflater.Owes z d ∧
    m.inflater.machine = taken.foldl State.byte {}

/-- The member at hand has met the cut within its data, and hands out nothing any more. -/
structure Inflation.Spent (cut : Cut) (total : Nat) (ample : Prop) (got : Bytes) (input : Cursor)
    (m : Inflation) : Prop where
  going : m.member.isComplete = false
  input : input.Holds noError total []
  off : m.inflater.isCutOff
  sound : m.inflater.isCorrupt = false
  ended : m.inflater.isEnded = false
  given : ∃ lost, cut.given = got ++ lost ∧ ∀ n, cut.Loses ample n .truncatedMember lost

namespace Inflation.Short
variable {input : Cursor} {m : Inflation}

theorem got_isPrefix (h : Short cut total got input m) :
    got <+: m.inflater.machine.output.toList := by
  obtain ⟨taken, rest, z, d, _, packed, data, _, _, machine⟩ := h.owed
  have needs : State.Needs {} (taken ++ z) cut.data := packed ▸ cut.encodes
  have inside := h.roomy.inside
  have grown := (State.output_foldl_bit m.inflater.bits m.inflater.state).length_le
  rw [h.delivered] at inside
  simp only [Array.length_toList] at grown
  refine List.prefix_of_prefix_length_le ⟨d, data.symm⟩ (machine ▸ needs.rest.output_isPrefix) ?_
  rw [Array.length_toList]
  exact Nat.le_trans (Nat.le_trans (Nat.le_add_right ..) inside) grown

theorem got_isPrefix_given (h : Short cut total got input m) : got <+: cut.given := by
  obtain ⟨taken, rest, z, d, front, _, _, _, _, machine⟩ := h.owed
  refine h.got_isPrefix.trans ?_
  rw [Cut.given, front, Deflate.inflate_append, machine]
  exact State.output_foldl_byte ..

/-- The last call that decides anything has come to the cut. -/
theorem spent {n : Nat} {next : Cursor} {member : Member} {inflater : Inflater}
    {checksum checksum' : Crc32} {s : Inflater.Step} {z : Bytes} (asked : 0 < n)
    (enough : ample → State.maxGrowth ≤ n)
    (h : Short cut total got input ⟨member, inflater, checksum⟩)
    (machine : inflater.machine = cut.front.foldl State.byte {})
    (more : z ≠ []) (behind : cut.missing = z ++ cut.trailer) (left : next.Holds noError total [])
    (cuts : inflater.CutsOff n s) :
    Spent cut total ample (got ++ s.produced) next ⟨member, s.inflater, checksum'⟩ := by
  have given : cut.given = inflater.machine.output.toList := by rw [machine]; rfl
  obtain ⟨late, whole⟩ : got <+: inflater.machine.output.toList := h.got_isPrefix
  have delivered : inflater.delivered = got.length := h.delivered
  have produced := cuts.produced
  rw [delivered, ← whole, List.drop_left] at produced
  have size : inflater.machine.output.size = got.length + late.length := by
    rw [← Array.length_toList, ← whole, List.length_append]
  have inside := congrArg List.length behind
  have some := List.length_pos_iff.mpr more
  have few := cuts.few
  rw [List.length_append] at inside
  refine ⟨h.going, left, cuts.off, cuts.sound, cuts.going, late.drop n, ?_, fun _ =>
    .inData (by omega) ?_ (fun small => ?_) fun all => ?_⟩
  · rw [given, ← whole, produced, List.append_assoc, List.take_append_drop]
  · rw [List.length_drop]
    have positive : 0 < State.maxGrowth := by decide
    omega
  · rw [given, Array.length_toList] at small
    have none := cuts.late small
    exact List.drop_eq_nil_of_le (by omega)
  · have := enough all
    exact List.drop_eq_nil_of_le (by omega)

/-- A call pays off what is owed, or comes to the cut. -/
theorem step {n : Nat} {next : Cursor} {member : Member} {inflater after : Inflater}
    {checksum : Crc32} {shown produced : Bytes} {consumed : Nat} (asked : 0 < n)
    (enough : ample → State.maxGrowth ≤ n)
    (h : Short cut total got input ⟨member, inflater, checksum⟩)
    (call : Peekable.fill input = (.ok shown, next))
    (step : inflater.step shown n = ⟨produced, consumed, after⟩) :
    (Short cut total (got ++ produced) (Peekable.consume next consumed)
        ⟨member, after, checksum.update produced⟩ ∧ (shown = [] → produced ≠ [] ∨ after.isEnded)) ∨
      shown = [] ∧ Spent cut total ample (got ++ produced) (Peekable.consume next consumed)
        ⟨member, after, checksum.update produced⟩ := by
  obtain ⟨taken, rest, z, d, front, packed, data, held, owed, machine⟩ := h.owed
  have behind := Cut.behind_eq front packed
  obtain ⟨near, none, _, left⟩ := (Cursor.tracks noError total).shown held call
  have bound := Inflater.consumed_step_le inflater shown n
  have takes := Inflater.takes_step inflater shown n
  have roomy := h.roomy.step shown n
  rw [step] at bound takes roomy
  have pays (paid : Inflater.Delivers inflater z d ⟨produced, consumed, after⟩) :
      Short cut total (got ++ produced) (Peekable.consume next consumed)
        ⟨member, after, checksum.update produced⟩ := by
    obtain ⟨inside, ⟨d', same, still⟩, _, count⟩ := paid
    have seen : shown.take consumed = rest.take consumed := by
      obtain ⟨more, rfl⟩ := near
      exact (List.take_append_of_le_length bound).symm
    have both : rest.take consumed = z.take consumed :=
      Cut.take_eq front packed (Nat.le_trans bound near.length_le) inside
    refine ⟨h.going, roomy, ?_, taken ++ rest.take consumed, rest.drop consumed, z.drop consumed,
      d', ?_, ?_, ?_, left consumed bound, still, ?_⟩
    · rw [List.length_append, ← h.delivered]
      exact count
    · rw [List.append_assoc, List.take_append_drop, front]
    · rw [both, List.append_assoc, List.take_append_drop, packed]
    · rw [data, same, List.append_assoc]
    · rw [List.foldl_append, ← seen]
      exact machine ▸ takes.resolve_left (by rw [still.sound]; decide)
  by_cases shows : shown = []
  · obtain rfl := none shows
    subst shows
    have idle : consumed = 0 := Nat.le_zero.mp bound
    rcases owed.step_nil h.roomy asked with ⟨paid, some⟩ | ⟨more, cuts⟩
    · rw [step] at paid some
      exact Or.inl ⟨pays paid, fun _ => some⟩
    · rw [step] at cuts
      rw [List.append_nil] at front
      have left : (Peekable.consume next consumed).Holds noError total [] := by
        simpa [idle] using left consumed bound
      exact Or.inr ⟨rfl, h.spent asked enough (front ▸ machine) more behind left cuts⟩
  · have near : shown <+: z ++ cut.trailer := behind ▸ near.trans (List.prefix_append ..)
    exact Or.inl ⟨pays (step ▸ owed.step near shows n), fun empty => absurd empty shows⟩

/-- Once the data have come to their end, all are handed out and the trailer is cut. -/
theorem readTrailer (h : Short cut total got input m) (ended : m.inflater.isEnded) :
    cut.given = got ∧ cut.missing.length ≤ cut.trailer.length ∧
      ∃ s, Container.readTrailer input m = (.error .shortRead, s) := by
  obtain ⟨taken, rest, z, d, front, packed, data, held, owed, machine⟩ := h.owed
  obtain ⟨rfl, rfl⟩ := owed.ended ended
  have behind := congrArg List.length (Cut.behind_eq front packed)
  have more := List.length_pos_iff.mpr cut.short
  simp only [List.length_append, List.length_nil, Nat.zero_add] at behind
  rw [List.append_nil] at packed data
  obtain ⟨next, failed, _⟩ :=
    Container.readTrailer_short quiet_noError held (by have := cut.whole; omega) m
  refine ⟨?_, by omega, _, failed⟩
  have needs : State.Needs {} taken cut.data := packed ▸ cut.encodes
  rw [Cut.given, front, Deflate.inflate_append]
  show (rest.foldl State.byte (taken.foldl State.byte {})).output.toList = got
  rw [State.foldl_byte_of_isFinished needs.finished, needs.output, data]

/-- Inflating hands out some bytes, or fails with what is lost then. -/
theorem inflate {n : Nat} (asked : 0 < n) (enough : ample → State.maxGrowth ≤ n)
    (h : Short cut total got input m) :
    (∃ bs s, Container.inflate n asked input m = (.ok bs, s) ∧ bs ≠ [] ∧
      (Short cut total (got ++ bs) s.1 s.2 ∨ Spent cut total ample (got ++ bs) s.1 s.2)) ∨
    ∃ e s lost, Container.inflate n asked input m = (.error e, s) ∧ cut.given = got ++ lost ∧
      cut.Loses ample n e lost := by
  fun_induction Container.inflate n asked input m with
  | case1 input member inflater checksum e next call =>
    obtain ⟨_, rest, _, _, _, _, _, held, _⟩ := h.owed
    exact ((Cursor.tracks noError total).unseen held call).1.elim
  | case2 input member inflater checksum shown next call produced consumed after step rest m =>
    rename_i corrupt
    rcases h.step asked enough call step with ⟨short, _⟩ | ⟨_, spent⟩
    · obtain ⟨_, _, _, _, _, _, _, _, owed, _⟩ := short.owed
      exact absurd (owed.sound.symm.trans corrupt) (by decide)
    · exact absurd (spent.sound.symm.trans corrupt) (by decide)
  | case3 input member inflater checksum shown next call produced consumed after step rest m =>
    rename_i ended
    rcases h.step asked enough call step with ⟨short, _⟩ | ⟨_, spent⟩
    · obtain ⟨given, behind, s, failed⟩ := short.readTrailer ended
      have last := Inflater.length_step_le inflater shown n
      rw [step] at last
      exact Or.inr ⟨.shortRead, s, produced, by rw [failed]; rfl, given, .inTrailer behind last⟩
    · exact absurd (spent.ended.symm.trans ended) (by decide)
  | case4 input member inflater checksum shown next call produced consumed after step rest m =>
    rename_i some
    exact Or.inl ⟨produced, _, rfl, some, (h.step asked enough call step).imp And.left And.right⟩
  | case5 input member inflater checksum next produced consumed after rest m _ =>
    rename_i going none call step
    rw [ne_eq, Classical.not_not] at none
    subst none
    rcases h.step asked enough call step with ⟨_, some⟩ | ⟨_, spent⟩
    · exact absurd (some rfl) (by simpa using going)
    · obtain ⟨lost, given, loses⟩ := spent.given
      rw [List.append_nil] at given
      exact Or.inr ⟨_, _, lost, rfl, given, loses n⟩
  | case6 input member inflater checksum shown next call produced consumed after step rest m =>
    rename_i none more ih
    rw [ne_eq, Classical.not_not] at none
    subst none
    rcases h.step asked enough call step with ⟨short, _⟩ | ⟨empty, _⟩
    · rw [List.append_nil] at short
      exact ih short
    · exact absurd empty more

end Inflation.Short

/-- Behind the cut every call fails, and loses what the last one has not handed out. -/
theorem Inflation.Spent.inflate {input : Cursor} {m : Inflation} {n : Nat} (asked : 0 < n)
    (h : Spent cut total ample got input m) :
    ∃ s lost, Container.inflate n asked input m = (.error .truncatedMember, s) ∧
      cut.given = got ++ lost ∧ cut.Loses ample n .truncatedMember lost := by
  obtain ⟨lost, given, loses⟩ := h.given
  have nothing {shown produced : Bytes} {consumed : Nat} {next : Cursor} {after : Inflater}
      (call : Peekable.fill input = (.ok shown, next))
      (step : m.inflater.step shown n = ⟨produced, consumed, after⟩) :
      shown = [] ∧ produced = [] ∧ after = m.inflater := by
    obtain ⟨near, _⟩ := (Cursor.tracks noError total).shown h.input call
    obtain rfl := List.prefix_nil.mp near
    rw [Inflater.step, if_neg (by rw [h.sound]; decide), if_pos (by rw [h.off]; rfl)] at step
    cases step
    exact ⟨rfl, rfl, rfl⟩
  fun_cases Container.inflate n asked input m with
  | case1 member inflater checksum e next call =>
    exact ((Cursor.tracks noError total).unseen h.input call).1.elim
  | case2 member inflater checksum shown next call produced consumed after step rest m corrupt =>
    obtain ⟨_, _, rfl⟩ := nothing call step
    exact absurd (h.sound.symm.trans corrupt) (by decide)
  | case3 member inflater checksum shown next call produced consumed after step rest m _ ended =>
    obtain ⟨_, _, rfl⟩ := nothing call step
    exact absurd (h.ended.symm.trans ended) (by decide)
  | case4 member inflater checksum shown next call produced consumed after step rest m _ _ some =>
    exact absurd (nothing call step).2.1 some
  | case5 => exact ⟨_, lost, rfl, given, loses n⟩
  | case6 member inflater checksum shown next call produced consumed after step rest m _ _ _ more =>
    exact absurd (nothing call step).1 more

namespace Container

/-- The container stands in a member that is cut short, of which `got` was handed out. -/
def Short (cut : Cut) (total : Nat) (ample : Prop) (got : Bytes) (c : Container) : Prop :=
  ∃ m, c.current = some m ∧
    (Inflation.Short cut total got c.input m ∨ Inflation.Spent cut total ample got c.input m)

namespace Short
variable {c : Container}

theorem got_isPrefix (h : Short cut total ample got c) : got <+: cut.given := by
  obtain ⟨m, _, short | spent⟩ := h
  · exact short.got_isPrefix_given
  · obtain ⟨lost, given, _⟩ := spent.given
    exact ⟨lost, given.symm⟩

/-- A read hands out some bytes, or fails with what is lost then. -/
theorem read {n : Nat} (asked : 0 < n) (enough : ample → State.maxGrowth ≤ n)
    (h : Short cut total ample got c) :
    (∃ bs c', c.read n = (.ok bs, c') ∧ bs ≠ [] ∧ Short cut total ample (got ++ bs) c') ∨
    ∃ e c' lost, c.read n = (.error e, c') ∧ cut.given = got ++ lost ∧
      cut.Loses ample n e lost := by
  obtain ⟨input, count, current, last, notices⟩ := c
  obtain ⟨m, rfl, stage⟩ := h
  have going : m.member.isComplete = false := stage.elim (·.going) (·.going)
  have answers : (∃ bs s, inflate n asked input m = (.ok bs, s) ∧ bs ≠ [] ∧
        (Inflation.Short cut total (got ++ bs) s.1 s.2 ∨
          Inflation.Spent cut total ample (got ++ bs) s.1 s.2)) ∨
      ∃ e s lost, inflate n asked input m = (.error e, s) ∧ cut.given = got ++ lost ∧
        cut.Loses ample n e lost := by
    rcases stage with short | spent
    · exact short.inflate asked enough
    · obtain ⟨s, lost, failed, given, loses⟩ := spent.inflate asked
      exact Or.inr ⟨_, s, lost, failed, given, loses⟩
  simp only [Container.read, dif_pos (And.intro asked going)]
  rcases answers with ⟨bs, s, answer, some, after⟩ | ⟨e, s, lost, answer, given, loses⟩ <;>
    rw [answer]
  · exact Or.inl ⟨bs, _, rfl, some, s.2, rfl, after⟩
  · exact Or.inr ⟨e, _, lost, rfl, given, loses⟩

/-- Reads of any sizes hand out bytes up to the first one that fails. -/
theorem readEach {sizes : Nat → Nat} (some : ∀ i, 0 < sizes i)
    (enough : ample → ∀ i, State.maxGrowth ≤ sizes i) (left : Nat)
    (h : Short cut total ample got c) (few : cut.given.length ≤ got.length + left) :
    ∃ k bs c₁ e c₂ lost, c.readEach ((List.range k).map sizes) = (.ok bs, c₁) ∧
      c₁.read (sizes k) = (.error e, c₂) ∧ cut.given = got ++ bs ++ lost ∧
      cut.Loses ample (sizes k) e lost := by
  -- the induction is on the number of bytes that can still be handed out
  induction left using Nat.strongRecOn generalizing c got sizes with
  | ind left ih =>
    rcases h.read (some 0) (fun all => enough all 0) with ⟨bs, c₁, answer, more, after⟩ |
      ⟨e, c₁, lost, failed, given, loses⟩
    · have handed := after.got_isPrefix.length_le
      have positive := List.length_pos_iff.mpr more
      rw [List.length_append] at handed
      obtain ⟨k, bs', c₂, e, c₃, lost, answers, failed, given, loses⟩ :=
        ih (left - bs.length) (by omega) (fun i => some (i + 1)) (fun all i => enough all (i + 1))
          after (by rw [List.length_append]; omega)
      refine ⟨k + 1, bs ++ bs', c₂, e, c₃, lost, ?_, failed, ?_, loses⟩
      · rw [List.range_succ_eq_map, List.map_cons, List.map_map]
        simp only [Container.readEach, answer, Outcome.andThen]
        exact Outcome.map_eq_ok.mpr ⟨bs', answers, rfl⟩
      · rw [given, List.append_assoc got]
    · exact ⟨0, [], c, e, c₁, lost, rfl, failed, by rw [List.append_nil, given], loses⟩

end Short

/-- Of a member that is cut short behind its header, reads of any sizes hand out all that can be
inflated of what is there, up to what is lost with the first failure, which is always the end of the
input. A cut in the trailer loses the bytes of the call that comes to it. A cut in the data loses at
most a few bytes behind the first window, and none if there is room for them in each call. -/
theorem read_cut {offset : Nat} {head : Bytes} {found : Found} {c : Container} (cut : Cut)
    (accepted : readHeader offset head = (.ok (some found), [])) (idle : c.current = none)
    (calm : c.input.source.failures = []) (held : c.input.source.bytes = head ++ cut.front)
    (sizes : Nat → Nat) (asked : ∀ i, 0 < sizes i) :
    ∃ begun c₁ k bs c₂ e c₃ lost, c.next = (.ok (some begun), c₁) ∧
      c₁.readEach ((List.range k).map sizes) = (.ok bs, c₂) ∧
      c₂.read (sizes k) = (.error e, c₃) ∧ e.kind = .unexpectedEof ∧ cut.given = bs ++ lost ∧
      cut.Loses (∀ i, State.maxGrowth ≤ sizes i) (sizes k) e lost := by
  obtain ⟨text, rfl, rfl⟩ := readHeader_text accepted
  rw [List.append_nil] at held
  have holds : c.input.Holds noError (c.position + (text.bytes ++ cut.front).length)
      (text.bytes ++ cut.front) := ⟨held ▸ Source.holds_noError calm, rfl⟩
  obtain ⟨c₁, next, _, current, left⟩ := next_head quiet_noError idle holds
  have begun : Short cut _ (∀ i, State.maxGrowth ≤ sizes i) [] c₁ :=
    ⟨_, current, Or.inl ⟨rfl, Inflater.roomy_start, rfl, [], cut.front, cut.packed, cut.data, rfl,
      rfl, rfl, left, Inflater.owes_start cut.encodes, rfl⟩⟩
  obtain ⟨k, bs, c₂, e, c₃, lost, answers, failed, given, loses⟩ :=
    begun.readEach asked id cut.given.length (Nat.le_add_left ..)
  refine ⟨_, c₁, k, bs, c₂, e, c₃, lost, next, answers, failed, ?_, given, loses⟩
  cases loses <;> rfl

/-- The first `k` bytes of a word that is compressed, and of its trailer. -/
def cutWord (k : Fin 16) : Cut where
  packed := [0xCB, 0x48, 0xCD, 0xC9, 0xC9, 0xE7, 0x02, 0x00]
  data := [0x68, 0x65, 0x6C, 0x6C, 0x6F, 0x0A]
  trailer := [0x20, 0x30, 0x3A, 0x36, 0x06, 0x00, 0x00, 0x00]
  front := [0xCB, 0x48, 0xCD, 0xC9, 0xC9, 0xE7, 0x02, 0x00, 0x20, 0x30, 0x3A, 0x36, 0x06, 0x00,
    0x00, 0x00].take k
  missing := [0xCB, 0x48, 0xCD, 0xC9, 0xC9, 0xE7, 0x02, 0x00, 0x20, 0x30, 0x3A, 0x36, 0x06, 0x00,
    0x00, 0x00].drop k
  encodes := @Deflate.encodes_fixedBlock [.literal 0x68, .literal 0x65, .literal 0x6C,
    .literal 0x6C, .literal 0x6F, .literal 0x0A] #[0x68, 0x65, 0x6C, 0x6C, 0x6F, 0x0A] rfl
  whole := rfl
  split := List.take_append_drop ..
  short := by simp

/-- Cut in its data, the word is handed out as far as it can be told. Cut in its trailer, the end of
it may be lost. -/
theorem read_cut_word :
    (∃ begun c₁ k c₂ c₃,
      (start ⟨[.chunk (({} : Header).bytes ++ (cutWord 4).front)]⟩).next = (.ok (some begun), c₁) ∧
      c₁.readEach ((List.range k).map (· + 1)) = (.ok [0x68, 0x65, 0x6C], c₂) ∧
      c₂.read (k + 1) = (.error .truncatedMember, c₃)) ∧
    ∃ begun c₁ k bs c₂ c₃ lost,
      (start ⟨[.chunk (({} : Header).bytes ++ (cutWord 10).front)]⟩).next =
        (.ok (some begun), c₁) ∧
      c₁.readEach ((List.range k).map (· + 1)) = (.ok bs, c₂) ∧
      c₂.read (k + 1) = (.error .shortRead, c₃) ∧
      [0x68, 0x65, 0x6C, 0x6C, 0x6F, 0x0A] = bs ++ lost ∧ lost.length ≤ k + 1 := by
  have fits : ({} : Header).Fits := ⟨rfl, by simp, by simp, by simp⟩
  obtain ⟨_, accepted, rfl⟩ := fits.text.gets_readHeader Bytes.tracks quiet_noError 0
    (List.append_nil fits.text.bytes)
  have accepted : readHeader 0 fits.text.bytes = (.ok (some fits.text.found), []) := accepted
  constructor
  · obtain ⟨begun, c₁, k, bs, c₂, e, c₃, lost, next, answers, failed, _, given, loses⟩ :=
      read_cut (c := start ⟨[.chunk (fits.text.bytes ++ (cutWord 4).front)]⟩) (cutWord 4) accepted
        rfl rfl (List.append_nil _) (· + 1) Nat.succ_pos
    have told : (cutWord 4).given = [0x68, 0x65, 0x6C] := by decide +kernel
    cases loses with
    | inData _ _ late =>
      have none := late (by rw [told]; decide)
      rw [none, List.append_nil, told] at given
      exact ⟨begun, c₁, k, c₂, c₃, next, given ▸ answers, failed⟩
    | inTrailer behind => exact absurd behind (by decide)
  · obtain ⟨begun, c₁, k, bs, c₂, e, c₃, lost, next, answers, failed, _, given, loses⟩ :=
      read_cut (c := start ⟨[.chunk (fits.text.bytes ++ (cutWord 10).front)]⟩) (cutWord 10) accepted
        rfl rfl (List.append_nil _) (· + 1) Nat.succ_pos
    have told : (cutWord 10).given = [0x68, 0x65, 0x6C, 0x6C, 0x6F, 0x0A] := by decide +kernel
    cases loses with
    | inData inside => exact absurd inside (by decide)
    | inTrailer _ last =>
      exact ⟨begun, c₁, k, bs, c₂, c₃, lost, next, answers, failed, told ▸ given, last⟩

/-- A member that holds a word, cut in the middle of its trailer. -/
def hello : Bytes :=
  [0x1F, 0x8B, 0x08, 0x00, 0x00, 0x00, 0x00, 0x00, 0x00, 0x03, 0xCB, 0x48, 0xCD, 0xC9, 0xC9, 0xE7,
    0x02, 0x00, 0x20, 0x30, 0x3A, 0x36]

/-- The first read fails, and what it has inflated is never handed out. -/
theorem read_hello :
    ((start ⟨[.chunk hello]⟩).next.2.read 6).1 matches .error .shortRead ∧
      (Deflate.inflate (hello.drop 10)).output.toList = [0x68, 0x65, 0x6C, 0x6C, 0x6F, 0x0A] := by
  constructor
  · -- the loop ends by the weight of the input, which does not compute
    unfold Container.read Container.inflate
    decide +kernel
  · decide +kernel

end Container
end WebArchive.Gzip
