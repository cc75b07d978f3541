import WebArchive.Digest.Block

/-!
The compression function of SHA-256.
-/
namespace WebArchive.Digest.Sha256

def rotate (n w : UInt32) : UInt32 := (w >>> n) ||| (w <<< (32 - n))

def constants : Array UInt32 :=
  #[0x428a2f98, 0x71374491, 0xb5c0fbcf, 0xe9b5dba5, 0x3956c25b, 0x59f111f1, 0x923f82a4, 0xab1c5ed5,
    0xd807aa98, 0x12835b01, 0x243185be, 0x550c7dc3, 0x72be5d74, 0x80deb1fe, 0x9bdc06a7, 0xc19bf174,
    0xe49b69c1, 0xefbe4786, 0x0fc19dc6, 0x240ca1cc, 0x2de92c6f, 0x4a7484aa, 0x5cb0a9dc, 0x76f988da,
    0x983e5152, 0xa831c66d, 0xb00327c8, 0xbf597fc7, 0xc6e00bf3, 0xd5a79147, 0x06ca6351, 0x14292967,
    0x27b70a85, 0x2e1b2138, 0x4d2c6dfc, 0x53380d13, 0x650a7354, 0x766a0abb, 0x81c2c92e, 0x92722c85,
    0xa2bfe8a1, 0xa81a664b, 0xc24b8b70, 0xc76c51a3, 0xd192e819, 0xd6990624, 0xf40e3585, 0x106aa070,
    0x19a4c116, 0x1e376c08, 0x2748774c, 0x34b0bcb5, 0x391c0cb3, 0x4ed8aa4a, 0x5b9cca4f, 0x682e6ff3,
    0x748f82ee, 0x78a5636f, 0x84c87814, 0x8cc70208, 0x90befffa, 0xa4506ceb, 0xbef9a3f7, 0xc67178f2]

def schedule (block : Array UInt32) : Array UInt32 :=
  (List.range 48).foldl (fun words i =>
    let word (back : Nat) := words.getD (i + 16 - back) 0
    let s0 := rotate 7 (word 15) ^^^ rotate 18 (word 15) ^^^ (word 15 >>> 3)
    let s1 := rotate 17 (word 2) ^^^ rotate 19 (word 2) ^^^ (word 2 >>> 10)
    words.push (word 16 + s0 + word 7 + s1)) block

structure Registers where
  a : UInt32
  b : UInt32
  c : UInt32
  d : UInt32
  e : UInt32
  f : UInt32
  g : UInt32
  h : UInt32

def round (words : Array UInt32) (r : Registers) (t : Nat) : Registers :=
  let s1 := rotate 6 r.e ^^^ rotate 11 r.e ^^^ rotate 25 r.e
  let choice := (r.e &&& r.f) ^^^ (~~~r.e &&& r.g)
  let t1 := r.h + s1 + choice + constants.getD t 0 + words.getD t 0
  let s0 := rotate 2 r.a ^^^ rotate 13 r.a ^^^ rotate 22 r.a
  let majority := (r.a &&& r.b) ^^^ (r.a &&& r.c) ^^^ (r.b &&& r.c)
  ⟨t1 + s0 + majority, r.a, r.b, r.c, r.d + t1, r.e, r.f, r.g⟩

def compress (h block : Array UInt32) : Array UInt32 :=
  let word (i : Nat) := h.getD i 0
  let r := (List.range 64).foldl (round (schedule block))
    ⟨word 0, word 1, word 2, word 3, word 4, word 5, word 6, word 7⟩
  #[word 0 + r.a, word 1 + r.b, word 2 + r.c, word 3 + r.d, word 4 + r.e, word 5 + r.f,
    word 6 + r.g, word 7 + r.h]

def compression : Compression :=
  ⟨#[0x6a09e667, 0xbb67ae85, 0x3c6ef372, 0xa54ff53a, 0x510e527f, 0x9b05688c, 0x1f83d9ab,
    0x5be0cd19], compress⟩

end WebArchive.Digest.Sha256
