import WebArchive.Proofs.Gzip.RoundTrip

/-!
Where a writer says that it stands, whatever fails. Its position advances with complete members, so
what an attempt had written before its source failed is missing from it for good. Main fact:
`Writer.position_lags`.
-/
namespace WebArchive.Gzip

open Deflate (Compressor)

namespace Deflation
variable {κ : Type} {room : Nat} {d : Deflation κ} {pre : Bytes}

/-- Behind `pre` stands as much as is counted, whatever it says. -/
abbrev Counted (pre : Bytes) (d : Deflation κ) : Prop := d.Written (fun _ _ _ => True) pre []

variable [Compressor κ]

theorem press_counted (some : 0 < room) (last : Bool) (piece : Bytes) (h : d.Counted pre) :
    ∃ d', d.press room some last piece = (.ok (), d') ∧ d'.Counted pre := by
  fun_induction press room some last d piece with
  | case1 => rename_i wrote; exact absurd wrote h.not_write_error
  | case2 d piece call sink wrote pressed => exact ⟨pressed, rfl, h.step wrote fun _ _ => trivial⟩
  | case3 d piece call sink wrote pressed more ih => exact ih (h.step wrote fun _ _ => trivial)

variable {σ : Type} [Readable σ]

/-- Only its source makes a deflation fail, and what was written before that stays. -/
theorem pull_counted (some : 0 < room) (source : σ) (h : d.Counted pre) :
    (d.pull room some source).2.Counted pre := by
  fun_induction pull room some d source with
  | case1 => exact h
  | case2 d source next call =>
    obtain ⟨d', pressed, counted⟩ := press_counted some true [] h
    rw [pressed]
    exact counted
  | case3 d source b bs next call ih =>
    have taken : (d.take (b :: bs)).Counted pre := h
    obtain ⟨d', pressed, counted⟩ := press_counted some false (b :: bs) taken
    rw [pressed]
    exact ih d' counted

end Deflation

theorem Header.length_bytes_pos (header : Header) : 0 < header.bytes.length := by
  simp only [Header.bytes, List.length_append, Header.length_fixed]
  omega

namespace Writer
variable {κ : Type} [Compressor κ] {σ : Type} [Readable σ]

/-- What an attempt at a member leaves behind `pre`. -/
inductive Attempt (w : Writer) (header : Header) (pre : Bytes) :
    Outcome Error Writer Member → Prop
  | unencodable (part : Section) : Attempt w header pre (.error (.unencodable part), w)
  | failed (e : StreamError) (out : Bytes) :
      Attempt w header pre
        (.error (.stream e), { w with sink := { bytes := pre ++ (header.bytes ++ out) } })
  | written (m : Member) (out : Bytes) (place : m.offset = w.position) :
      Attempt w header pre
        (.ok m, { w with
          sink := { bytes := pre ++ (header.bytes ++ out) }
          count := w.count + 1
          position := w.position + (header.bytes ++ out).length })

theorem attempt_writeWith {w : Writer} {pre : Bytes} (unlimited : w.sink = { bytes := pre })
    (header : Header) (source : σ) : Attempt w header pre (w.writeWith κ header source) := by
  unfold writeWith Header.encode
  rcases header.misfit? with _ | part
  · have wrote : w.sink.write header.bytes = (.ok (), { bytes := pre ++ header.bytes }) := by
      rw [unlimited]
      rfl
    simp only [wrote]
    have counted := Deflation.pull_counted w.bufferSize_pos source
      (⟨[], by rw [List.append_nil], rfl, trivial⟩ :
        Deflation.Counted (κ := κ) (pre ++ header.bytes)
          { sink := { bytes := pre ++ header.bytes }, compressor := Compressor.start })
    rcases pulled : Deflation.pull w.bufferSize w.bufferSize_pos _ source with ⟨answer, d⟩
    rw [pulled] at counted
    dsimp only at counted
    obtain ⟨out, sink, size, _⟩ := counted
    rw [List.append_assoc] at sink
    cases answer with
    | error e =>
      simp only [sink]
      exact .failed e out
    | ok =>
      have trailer := Member.length_trailer d.checksum d.size
      have ended : d.sink.write (Member.trailer d.checksum d.size) = (.ok (), { bytes := pre ++
          (header.bytes ++ (out ++ Member.trailer d.checksum d.size)) }) := by
        rw [sink]
        simp [Sink.write]
      have place : w.position + header.bytes.length + d.compressedSize + Member.trailerLength =
          w.position + (header.bytes ++ (out ++ Member.trailer d.checksum d.size)).length := by
        simp only [List.length_append, trailer, size]
        omega
      simp only [ended, place]
      exact .written _ _ rfl
  · exact .unencodable part

/-! ### Runs -/

/-- Attempts at members with these headers and data, whatever fails, and what they answer. -/
def attempts (κ : Type) [Compressor κ] (w : Writer) :
    List (Header × Source) → List (Except Error Member) × Writer
  | [] => ([], w)
  | (header, source) :: parts =>
    let (answer, w) := w.writeWith κ header source
    let (answers, w) := w.attempts κ parts
    (answer :: answers, w)

/-- How many bytes such attempts write in vain. -/
def spilled (κ : Type) [Compressor κ] (w : Writer) : List (Header × Source) → Nat
  | [] => 0
  | (header, source) :: parts =>
    match w.writeWith κ header source with
    | (.ok _, after) => after.spilled κ parts
    | (.error _, after) =>
      (after.sink.bytes.length - w.sink.bytes.length) + after.spilled κ parts

def IsStreamError (answer : Except Error Member) : Prop := ∃ e, answer = .error (.stream e)

theorem attempts_eq {w : Writer} {pre : Bytes} (unlimited : w.sink = { bytes := pre })
    (parts : List (Header × Source)) :
    ∃ out, (w.attempts κ parts).2.sink = { bytes := pre ++ out } ∧
      (w.attempts κ parts).2.position + w.spilled κ parts = w.position + out.length ∧
      (w.spilled κ parts = 0 ↔ ∀ answer ∈ (w.attempts κ parts).1, ¬ IsStreamError answer) := by
  induction parts generalizing w pre with
  | nil => exact ⟨[], by simpa [attempts] using unlimited, rfl, by simp [attempts, spilled]⟩
  | cons part parts ih =>
    obtain ⟨header, source⟩ := part
    have one := attempt_writeWith (κ := κ) unlimited header source
    simp only [attempts, spilled]
    generalize w.writeWith κ header source = outcome at one ⊢
    cases one with
    | unencodable part =>
      obtain ⟨out, sink, place, none⟩ := ih unlimited
      refine ⟨out, sink, by simpa using place, ?_⟩
      simp only [Nat.sub_self, Nat.zero_add, List.forall_mem_cons, none, IsStreamError]
      simp
    | failed e first =>
      obtain ⟨out, sink, place, _⟩ := ih (w := { w with sink := _ }) rfl
      have written := header.length_bytes_pos
      have grown : (pre ++ (header.bytes ++ first)).length - w.sink.bytes.length =
          (header.bytes ++ first).length := by
        rw [unlimited, List.length_append, Nat.add_sub_cancel_left]
      simp only [grown]
      refine ⟨header.bytes ++ first ++ out, by rw [sink, List.append_assoc], ?_, ?_⟩
      · simp only [List.length_append] at place ⊢
        omega
      · simp only [List.forall_mem_cons, IsStreamError, List.length_append]
        refine ⟨fun none => absurd none (by omega), fun all => absurd ⟨e, rfl⟩ all.1⟩
    | written m first offset =>
      obtain ⟨out, sink, place, none⟩ :=
        ih (w := { w with sink := _, count := _, position := _ }) rfl
      refine ⟨header.bytes ++ first ++ out, by rw [sink, List.append_assoc], ?_, ?_⟩
      · simp only [List.length_append] at place ⊢
        omega
      · simp only [List.forall_mem_cons, none, IsStreamError]
        simp

/-- The position of a writer is short of the bytes in its output by those that failed attempts have
left there, so it tells how many there are as long as no source has failed. A member that is written
later begins that much behind the offset in its entry. -/
theorem position_lags (κ : Type) [Compressor κ] (bufferSize : Nat) (some : 0 < bufferSize)
    (pre : Bytes) :
    ∃ w, withBuffer { bytes := pre } bufferSize = .ok w ∧ ∀ parts : List (Header × Source), ∃ out,
      (w.attempts κ parts).2.sink = { bytes := pre ++ out } ∧
      (w.attempts κ parts).2.position + w.spilled κ parts = out.length ∧
      ((w.attempts κ parts).2.position = out.length ↔
        ∀ answer ∈ (w.attempts κ parts).1, ¬ IsStreamError answer) ∧
      ∀ (header : Header) (source : Source) m w',
        (w.attempts κ parts).2.writeWith κ header source = (.ok m, w') →
        m.offset + w.spilled κ parts = out.length ∧
          ∃ more, w'.sink = { bytes := pre ++ out ++ (header.bytes ++ more) } := by
  refine ⟨{ sink := { bytes := pre }, bufferSize, bufferSize_pos := some },
    by rw [withBuffer, dif_pos some], fun parts => ?_⟩
  obtain ⟨out, sink, place, none⟩ := attempts_eq (κ := κ)
    (w := { sink := { bytes := pre }, bufferSize, bufferSize_pos := some }) rfl parts
  have place := place.trans (Nat.zero_add _)
  refine ⟨out, sink, place, ?_, fun header source m w' call => ?_⟩
  · rw [← none]
    omega
  · have one := attempt_writeWith (κ := κ) sink header source
    rw [call] at one
    cases one with
    | written m more offset => exact ⟨offset ▸ place, more, rfl⟩

/-- The source fails between two pieces. -/
def broken : Source := ⟨[.chunk [0x61, 0x62, 0x63], .failure (.device .other "injected Other")]⟩

/-- One attempt that fails, and a member behind what it has left. -/
theorem position_lags_broken :
    ∃ w out m w', withBuffer { bytes := [7] } 2 = .ok w ∧
      (w.attempts Deflate.Deflater [({}, broken)]).2.writeWith Deflate.Deflater {}
        (Source.ofBytes [1, 2]) = (.ok m, w') ∧
      m.offset + w.spilled Deflate.Deflater [({}, broken)] = out.length ∧
      ∃ more, w'.sink = { bytes := [7] ++ out ++ (Header.bytes {} ++ more) } := by
  obtain ⟨w, begun, run⟩ := position_lags Deflate.Deflater 2 (by decide) [7]
  obtain ⟨out, sink, _, _, next⟩ := run [({}, broken)]
  have fits : ({} : Header).Fits := ⟨rfl, by simp, by simp, by simp⟩
  obtain ⟨text, w', call, _⟩ := writeWith_eq Deflate.Deflater.faithful
    (Source.tracks noError).toTracks quiet_noError fits sink
    (Source.holds_noError (s := Source.ofBytes [1, 2]) rfl)
  obtain ⟨place, behind⟩ := next {} (Source.ofBytes [1, 2]) _ w' call
  exact ⟨w, out, _, w', begun, call, place, behind⟩

/-- Ten bytes are in the output of a writer that still stands at its beginning. -/
theorem position_behind :
    (({} : Writer).write {} broken).2.position = 0 ∧
      (({} : Writer).write {} broken).2.sink.bytes.length = 10 := by
  -- the loops end by their weights, which do not compute, so each round is unfolded
  unfold write writeWith
  unfold Deflation.pull
  unfold Deflation.press
  unfold Deflation.pull
  decide +kernel

end Writer
end WebArchive.Gzip
