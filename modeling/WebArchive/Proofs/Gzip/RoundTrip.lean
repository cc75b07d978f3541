import WebArchive.Gzip.Writer
import WebArchive.Proofs.Deflate.Compression
import WebArchive.Proofs.Gzip.Members

/-!
Members that are written are read back. Whatever pieces the data come in and however small the
buffer is, a written member stands in the container as a `MemberText` with its data, which is
`writeWith_eq`; `yields_written` puts this together with what reading such members gives.
-/
namespace WebArchive.Gzip

open Deflate (Compressor Encodes Squeeze)
open Deflate.Compressor (Fed Closing Faithful)

/-- A trailer says what it was made of, as far as there is room for it. -/
theorem Member.withTrailer_trailer (member : Member) (sum : Crc32) (compressedSize size : Nat) :
    member.withTrailer (trailer sum size) sum compressedSize size =
      { member with
        ending := some
          { compressedSize
            size
            checksum := ⟨sum.value, sum.value⟩
            shortSize := ⟨UInt32.ofNat size, UInt32.ofNat size⟩ } } := by
  have first : (trailer sum size).take 4 = Bytes.littleEndian 4 sum.value.toNat := by
    rw [trailer, List.take_left' (Bytes.length_littleEndian ..)]
  have last : (trailer sum size).drop 4 = Bytes.littleEndian 4 size := by
    rw [trailer, List.drop_left' (Bytes.length_littleEndian ..)]
  have stated : UInt32.ofNat (Bytes.ofLittleEndian (Bytes.littleEndian 4 sum.value.toNat)) =
      sum.value := by
    rw [Bytes.ofLittleEndian_littleEndian 4 _ (by simpa using sum.value.toNat_lt)]
    exact UInt32.ofNat_toNat
  have short : UInt32.ofNat (Bytes.ofLittleEndian (Bytes.littleEndian 4 size)) =
      UInt32.ofNat size := by
    rw [Bytes.ofLittleEndian_littleEndian_mod]
    apply UInt32.toNat.inj
    rw [UInt32.toNat_ofNat', UInt32.toNat_ofNat']
    exact Nat.mod_mod _ _
  rw [withTrailer, first, last, stated, short]

namespace Deflation
variable {κ : Type} {room : Nat} {d : Deflation κ} {pre data : Bytes}

/-- Behind `pre` stands what the compressor handed out for `data`. -/
def Written (stage : κ → (data out : Bytes) → Prop) (pre data : Bytes) (d : Deflation κ) : Prop :=
  ∃ out, d.sink = { bytes := pre ++ out } ∧ d.compressedSize = out.length ∧
    stage d.compressor data out

def complete (_ : κ) (data out : Bytes) : Prop := Encodes out data

namespace Written
variable {stage stage' : κ → (data out : Bytes) → Prop}

theorem not_write_error (h : d.Written stage pre data) {bs : Bytes} {e : StreamError}
    {sink : Sink} :
    d.sink.write bs ≠ (.error e, sink) := by
  obtain ⟨out, same, _⟩ := h
  rw [same]
  intro call
  cases call

theorem step (h : d.Written stage pre data) {data' : Bytes} {call : Squeeze κ} {sink : Sink}
    (wrote : d.sink.write call.produced = (.ok (), sink))
    (next : ∀ out, stage d.compressor data out → stage' call.next data' (out ++ call.produced)) :
    Written stage' pre data'
      { d with
        sink
        compressor := call.next
        compressedSize := d.compressedSize + call.produced.length } := by
  obtain ⟨out, same, count, staged⟩ := h
  rw [same] at wrote
  cases wrote
  refine ⟨out ++ call.produced, by simp, ?_, next out staged⟩
  rw [count, List.length_append]

end Written

variable [Compressor κ]

theorem press_piece (some : 0 < room) {piece : Bytes} (h : d.Written Fed pre data)
    (shown : piece ≠ []) :
    ∃ d', d.press room some false piece = (.ok (), d') ∧ d'.Written Fed pre (data ++ piece) ∧
      d'.checksum = d.checksum ∧ d'.size = d.size := by
  -- the induction is on the rounds of a call with any flag
  generalize last : false = l
  fun_induction press room some l d piece generalizing data with
  | case1 => rename_i wrote; exact absurd wrote h.not_write_error
  | case2 d piece call sink wrote pressed =>
    rename_i done
    subst last
    have done : piece.drop call.consumed = [] := by simpa using done
    have taken : piece.take call.consumed = piece := by
      have whole := List.take_append_drop call.consumed piece
      rwa [done, List.append_nil] at whole
    refine ⟨pressed, rfl, h.step wrote fun out fed => ?_, rfl, rfl⟩
    have next := fed.call some shown
    rwa [taken] at next
  | case3 d piece call sink wrote pressed more =>
    rename_i ih
    subst last
    obtain ⟨d', answer, written, sum, size⟩ :=
      ih (h.step wrote fun out fed => fed.call some shown) (by simpa using more)
    rw [List.append_assoc, List.take_append_drop] at written
    exact ⟨d', answer, written, sum, size⟩

theorem press_last (some : 0 < room) (faithful : Faithful κ) (h : d.Written Closing pre data) :
    ∃ d', d.press room some true [] = (.ok (), d') ∧ d'.Written complete pre data ∧
      d'.checksum = d.checksum ∧ d'.size = d.size := by
  generalize last : true = l
  generalize none : ([] : Bytes) = piece
  fun_induction press room some l d piece with
  | case1 => rename_i wrote; exact absurd wrote h.not_write_error
  | case2 d piece call sink wrote pressed ended =>
    subst last none
    refine ⟨pressed, rfl, h.step wrote ?_, rfl, rfl⟩
    intro out closing
    exact faithful closing some (by simpa using ended)
  | case3 d piece call sink wrote pressed more ih =>
    subst last none
    have going : call.isEnded = false := by simpa using more
    exact ih (h.step wrote fun out closing => closing.call some going) (by simp)

variable {σ : Type} [Readable σ] {I : σ → Bytes → Prop} {E : StreamError → Prop}

theorem pull_eq (some : 0 < room) (faithful : Faithful κ) (t : Readable.Tracks I E)
    (quiet : Quiet E) {source : σ} {rest : Bytes} (h : d.Written Fed pre data)
    (sum : d.checksum = Crc32.update {} data) (size : d.size = data.length) (held : I source rest) :
    ∃ d', d.pull room some source = (.ok (), d') ∧ d'.Written complete pre (data ++ rest) ∧
      d'.checksum = Crc32.update {} (data ++ rest) ∧ d'.size = (data ++ rest).length := by
  -- the induction is on the reads: what they give moves from `rest` to `data`
  fun_induction pull room some d source generalizing data rest with
  | case1 d source e next call => exact absurd call (t.not_readOn_error quiet held)
  | case2 d source next call =>
    obtain ⟨rest, rfl, _, none⟩ := t.readOn_ok held call
    obtain rfl : rest = [] := none some rfl
    obtain ⟨out, same, count, fed⟩ := h
    obtain ⟨d', answer, written, sum', size'⟩ :=
      press_last some faithful ⟨out, same, count, .begin fed⟩
    rw [List.append_nil]
    exact ⟨d', answer, written, sum'.trans sum, size'.trans size⟩
  | case3 d source b bs next call ih =>
    obtain ⟨rest, rfl, left, _⟩ := t.readOn_ok held call
    have begun : (d.take (b :: bs)).Written Fed pre data := h
    obtain ⟨d', answer, written, sum', size'⟩ :=
      press_piece some begun (List.cons_ne_nil b bs)
    obtain ⟨last, answers, whole⟩ := ih d' written
      (by rw [sum', take, sum, Crc32.update_append]) (by rw [size', take, size, List.length_append])
      left
    rw [List.append_assoc] at whole
    exact ⟨last, by simp only [answer, Outcome.andThen, answers], whole⟩

end Deflation

namespace Writer
variable {κ : Type} [Compressor κ] {σ : Type} [Readable σ] {I : σ → Bytes → Prop}
  {E : StreamError → Prop}

/-- A member is written as it will stand in the container, and it is known just as it will be
read. -/
theorem writeWith_eq (faithful : Faithful κ) (t : Readable.Tracks I E) (quiet : Quiet E)
    {w : Writer} {pre data : Bytes} {header : Header} {source : σ} (fits : header.Fits)
    (unlimited : w.sink = { bytes := pre }) (held : I source data) :
    ∃ (text : MemberText) (w' : Writer),
      w.writeWith κ header source = (.ok (text.entry w.count w.position), w') ∧
      text.data = data ∧ w'.sink = { bytes := pre ++ text.bytes } ∧ w'.count = w.count + 1 ∧
      w'.position = w.position + text.bytes.length := by
  have started : Deflation.Written (κ := κ) Fed (pre ++ header.bytes) []
      { sink := { bytes := pre ++ header.bytes }, compressor := Compressor.start } :=
    ⟨[], by rw [List.append_nil], rfl, .start⟩
  obtain ⟨d, pulled, ⟨z, sink, count, encodes⟩, sum, size⟩ :=
    Deflation.pull_eq w.bufferSize_pos faithful t quiet started
      rfl rfl held
  rw [List.nil_append] at encodes sum size
  let text : MemberText :=
    { head := fits.text
      packed := z
      data
      trailer := Member.trailer d.checksum d.size
      encodes
      whole := Member.length_trailer .. }
  have place : header.bytes.length + d.compressedSize + Member.trailerLength =
      text.bytes.length := by
    show _ = (header.bytes ++ (z ++ Member.trailer d.checksum d.size)).length
    rw [List.length_append, List.length_append, count, Member.length_trailer, Nat.add_assoc]
  have member : d.member w.count w.position header = text.entry w.count w.position := by
    show _ = Member.withTrailer (.ofFound w.count w.position fits.text.found)
      (Member.trailer d.checksum d.size) (Crc32.update {} data) z.length data.length
    rw [← sum, ← size, ← count, Member.withTrailer_trailer, fits.found_text]
    rfl
  have wrote : w.sink.write header.bytes = (.ok (), { bytes := pre ++ header.bytes }) := by
    rw [unlimited]
    rfl
  have closed : d.sink.write (Member.trailer d.checksum d.size) =
      (.ok (), { bytes := pre ++ text.bytes }) := by
    rw [sink]
    show (_, ({ bytes := pre ++ header.bytes ++ z ++ _ } : Sink)) =
      (_, { bytes := pre ++ (header.bytes ++ (z ++ _)) })
    simp only [List.append_assoc]
    rfl
  refine ⟨text, { w with
    sink := { bytes := pre ++ text.bytes }
    count := w.count + 1
    position := w.position + text.bytes.length }, ?_, rfl, rfl, rfl, rfl⟩
  simp only [writeWith, fits.encode_eq, wrote, pulled, closed, member, ← place, Nat.add_assoc]

/-! ### Runs -/

/-- Members with these headers and data are written one after the other. -/
def writeEach (κ : Type) [Compressor κ] (w : Writer) :
    List (Header × Source) → Outcome Error Writer (List Member)
  | [] => (.ok [], w)
  | (header, source) :: parts =>
    (w.writeWith κ header source).andThen fun m w => (w.writeEach κ parts).map (m :: ·)

theorem writeEach_eq (faithful : Faithful κ) {w : Writer} {pre : Bytes}
    {parts : List (Header × Source)} (fits : ∀ part ∈ parts, part.1.Fits)
    (calm : ∀ part ∈ parts, ∀ e ∈ part.2.failures, e.isInterrupted)
    (unlimited : w.sink = { bytes := pre }) :
    ∃ (texts : List MemberText) (w' : Writer),
      w.writeEach κ parts = (.ok (MemberText.entries w.count w.position texts), w') ∧
      texts.map (·.data) = parts.map (·.2.bytes) ∧
      w'.sink = { bytes := pre ++ texts.flatMap (·.bytes) } ∧
      w'.position = w.position + (texts.flatMap (·.bytes)).length := by
  induction parts generalizing w pre with
  | nil => exact ⟨[], w, rfl, rfl, by simpa using unlimited, rfl⟩
  | cons part parts ih =>
    obtain ⟨header, source⟩ := part
    have held : source.Holds (·.isInterrupted) source.bytes :=
      ⟨rfl, calm (header, source) (by simp)⟩
    obtain ⟨text, w₁, wrote, same, sink, count, place⟩ :=
      writeWith_eq faithful (Source.tracks _).toTracks (fun _ again => again)
        (fits (header, source) (by simp)) unlimited held
    obtain ⟨texts, w₂, others, datas, sink', place'⟩ :=
      ih (fun part some => fits part (by simp [some])) (fun part some => calm part (by simp [some]))
        sink
    refine ⟨text :: texts, w₂, ?_, by simp [same, datas], ?_, ?_⟩
    · rw [count, place] at others
      simp only [writeEach, wrote, Outcome.andThen, others]
      rfl
    · rw [sink', List.flatMap_cons, List.append_assoc]
    · rw [place', place, List.flatMap_cons, List.length_append, Nat.add_assoc]

end Writer

/-- Whatever buffer they are written through, and whatever pieces their data come in, members are
read back as they were written, from any source with these bytes and by any reads. Behind the last
one the reader has come as far as the writer. -/
theorem Container.yields_written (κ : Type) [Compressor κ] (faithful : Faithful κ)
    (bufferSize : Nat) (some : 0 < bufferSize) (parts : List (Header × Source))
    (fits : ∀ part ∈ parts, part.1.Fits)
    (calm : ∀ part ∈ parts, ∀ e ∈ part.2.failures, e.isInterrupted) :
    ∃ w members w', Writer.withBuffer {} bufferSize = .ok w ∧
      w.writeEach κ parts = (.ok members, w') ∧ members.length = parts.length ∧
      w'.position = w'.sink.bytes.length ∧
      ∀ source : Source, source.bytes = w'.sink.bytes → source.failures = [] →
        ∀ uses, Yields (·.position = w'.position) ((parts.map (·.2.bytes)).zip members)
          (start source) uses := by
  let w : Writer := { bufferSize, bufferSize_pos := some }
  obtain ⟨texts, w', wrote, datas, sink, place⟩ :=
    Writer.writeEach_eq (w := w) faithful fits calm rfl
  rw [List.nil_append] at sink
  have count : texts.length = parts.length := by simpa using congrArg List.length datas
  refine ⟨w, _, w', by rw [Writer.withBuffer, dif_pos some], wrote, ?_, ?_, ?_⟩
  · rw [MemberText.length_entries, count]
  · rw [place, sink]
    exact Nat.zero_add _
  · intro source same calm uses
    rw [sink] at same
    have begun := between_start calm
    rw [same] at begun
    have yields := yields_texts begun uses
    rw [place, ← datas, show w.position = 0 from rfl, Nat.zero_add]
    exact yields

/-- A named and checked member whose data come in two pieces, and an empty one, written a byte at
a time. -/
theorem Container.yields_written_pair :
    ∃ w members w', Writer.withBuffer {} 1 = .ok w ∧
      w.writeEach Deflate.Deflater
        [({ hasChecksum := true, name := some [0x61] },
            ⟨[.chunk [1, 2], .failure (.device .interrupted ""), .chunk [3]]⟩),
          ({}, ⟨[]⟩)] = (.ok members, w') ∧
      members.length = 2 ∧ w'.position = w'.sink.bytes.length ∧
      ∀ source : Source, source.bytes = w'.sink.bytes → source.failures = [] →
        ∀ uses, Yields (·.position = w'.position) ([[1, 2, 3], []].zip members) (start source)
          uses := by
  refine yields_written Deflate.Deflater Deflate.Deflater.faithful 1 (by decide) _ ?_ ?_
  · intro part some
    simp only [List.mem_cons, List.not_mem_nil, or_false] at some
    rcases some with rfl | rfl <;> exact ⟨rfl, by simp, by simp, by simp⟩
  · intro part some
    simp only [List.mem_cons, List.not_mem_nil, or_false] at some
    rcases some with rfl | rfl
    · intro e failure
      obtain rfl : e = .device .interrupted "" := by simpa [Source.failures] using failure
      rfl
    · simp [Source.failures]

end WebArchive.Gzip
