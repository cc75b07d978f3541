import WebArchive.Digest.Block

/-!
The compression function of SHA-1.
-/
namespace WebArchive.Digest.Sha1

def rotate (n w : UInt32) : UInt32 := (w <<< n) ||| (w >>> (32 - n))

/-- Word `t` is the rotated sum, bit by bit, of the words 3, 8, 14 and 16 places before. -/
def schedule (block : Array UInt32) : Array UInt32 :=
  (List.range 64).foldl (fun words i =>
    let word (back : Nat) := words.getD (i + 16 - back) 0
    words.push (rotate 1 (word 3 ^^^ word 8 ^^^ word 14 ^^^ word 16))) block

def mix (t : Nat) (b c d : UInt32) : UInt32 × UInt32 :=
  if t < 20 then ((b &&& c) ||| (~~~b &&& d), 0x5A827999)
  else if t < 40 then (b ^^^ c ^^^ d, 0x6ED9EBA1)
  else if t < 60 then ((b &&& c) ||| (b &&& d) ||| (c &&& d), 0x8F1BBCDC)
  else (b ^^^ c ^^^ d, 0xCA62C1D6)

structure Registers where
  a : UInt32
  b : UInt32
  c : UInt32
  d : UInt32
  e : UInt32

def round (words : Array UInt32) (r : Registers) (t : Nat) : Registers :=
  let (f, k) := mix t r.b r.c r.d
  ⟨rotate 5 r.a + f + r.e + k + words.getD t 0, r.a, rotate 30 r.b, r.c, r.d⟩

def compress (h block : Array UInt32) : Array UInt32 :=
  let word (i : Nat) := h.getD i 0
  let r := (List.range 80).foldl (round (schedule block)) ⟨word 0, word 1, word 2, word 3, word 4⟩
  #[word 0 + r.a, word 1 + r.b, word 2 + r.c, word 3 + r.d, word 4 + r.e]

def compression : Compression :=
  ⟨#[0x67452301, 0xEFCDAB89, 0x98BADCFE, 0x10325476, 0xC3D2E1F0], compress⟩

end WebArchive.Digest.Sha1
