import WebArchive.Digest.Basic

/-!
Digests as their standard has them: the message is padded to whole blocks of 64 bytes, which are
compressed one after the other. Main fact: `Hasher.finish_update`, a digest that is computed while
the bytes come is that of the message.
-/
namespace WebArchive.Digest

namespace Compression

/-- The chaining words behind all the whole blocks. -/
def blocks (k : Compression) (words : Array UInt32) (bs : Bytes) : Array UInt32 :=
  if bs.length < 64 then words
  else k.blocks (k.compress words (bigEndianWords (bs.take 64)).toArray) (bs.drop 64)
termination_by bs.length

def digest (k : Compression) (message : Bytes) : Bytes :=
  (k.blocks k.initial (message ++ padding message.length)).toList.flatMap bigEndianBytes

/-- A padded message is made of whole blocks. -/
theorem length_padded (message : Bytes) : (message ++ padding message.length).length % 64 = 0 := by
  simp only [padding, List.length_append, List.length_cons, List.length_replicate,
    List.length_reverse, Bytes.length_littleEndian]
  omega

variable (k : Compression) {words : Array UInt32} {gathered bs : Bytes} {n length : Nat}

theorem update_within (room : n + bs.length < 64) :
    k.update ⟨words, gathered, n, length⟩ bs =
      ⟨words, bs.reverse ++ gathered, n + bs.length, length + bs.length⟩ := by
  induction bs generalizing gathered n length with
  | nil => rfl
  | cons b bs ih =>
    rw [List.length_cons] at room
    have rest := @ih (b :: gathered) (n + 1) (length + 1) (by omega)
    rw [update, List.foldl_cons, byte, if_pos (show n < 63 by omega)]
    rw [update] at rest
    rw [rest, List.reverse_cons, List.append_assoc, List.length_cons]
    simp only [Running.mk.injEq, List.singleton_append, true_and]
    omega

theorem update_block (full : bs.length = 64) :
    k.update ⟨words, [], 0, length⟩ bs =
      ⟨k.compress words (bigEndianWords bs).toArray, [], 0, length + 64⟩ := by
  obtain rfl | ⟨front, b, rfl⟩ := List.eq_nil_or_concat bs
  · cases full
  · have most : front.length = 63 := by simpa using full
    have gathered := @update_within k words [] front 0 length (by omega)
    rw [List.concat_eq_append, update_append, gathered, update, List.foldl_cons, List.foldl_nil,
      byte, if_neg (by simp [most]), most]
    simp

theorem words_update (words : Array UInt32) (length : Nat) (bs : Bytes) :
    (k.update ⟨words, [], 0, length⟩ bs).words = k.blocks words bs := by
  fun_induction blocks k words bs generalizing length with
  | case1 words bs short => rw [update_within k (by omega)]
  | case2 words bs long ih =>
    have full : (bs.take 64).length = 64 := by
      rw [List.length_take]
      omega
    rw [← ih (length + 64), ← update_block k full, ← update_append, List.take_append_drop]

theorem length_update (r : Running) (bs : Bytes) :
    (k.update r bs).length = r.length + bs.length := by
  induction bs generalizing r with
  | nil => rfl
  | cons b bs ih =>
    have one : (k.byte r b).length = r.length + 1 := by
      unfold byte
      split <;> rfl
    have rest := ih (k.byte r b)
    rw [update, List.foldl_cons, List.length_cons]
    rw [update, one] at rest
    omega

theorem finish_update (message : Bytes) :
    k.finish (k.update k.start message) = k.digest message := by
  have taken : (k.update k.start message).length = message.length :=
    (length_update k k.start message).trans (Nat.zero_add _)
  rw [finish, taken, ← update_append, start, words_update, digest]

end Compression

def ofBytes (algorithm : Algorithm) (bs : Bytes) : Value :=
  ⟨algorithm, algorithm.compression.digest bs⟩

namespace Hasher

theorem update_eq (h : Hasher) (bs : Bytes) :
    h.update bs = { h with running := h.algorithm.compression.update h.running bs } := by
  induction bs generalizing h with
  | nil => rfl
  | cons b bs ih => exact ih (h.byte b)

theorem finish_update (algorithm : Algorithm) (bs : Bytes) :
    ((start algorithm).update bs).finish = ofBytes algorithm bs := by
  rw [update_eq, finish, ofBytes]
  exact congrArg _ (algorithm.compression.finish_update bs)

end Hasher

example : (ofBytes .sha1 [0x61, 0x62, 0x63]).display =
    "sha1:a9993e364706816aba3e25717850c26c9cd0d89d".toList := by
  decide +kernel

example : (ofBytes .sha256 [0x61, 0x62, 0x63]).display =
    "sha256:ba7816bf8f01cfea414140de5dae2223b00361a396177a9cb410ff61f20015ad".toList := by
  decide +kernel

end WebArchive.Digest
