/-!
SHA-256: a message becomes a chain of 512-bit blocks, each folded into eight 32-bit words.
-/

namespace LPRounding.Random.Digest

def rotate (x : UInt32) (n : UInt32) : UInt32 := (x >>> n) ||| (x <<< (32 - n))

def roundConstants : Array UInt32 := #[
  0x428a2f98, 0x71374491, 0xb5c0fbcf, 0xe9b5dba5, 0x3956c25b, 0x59f111f1, 0x923f82a4, 0xab1c5ed5,
  0xd807aa98, 0x12835b01, 0x243185be, 0x550c7dc3, 0x72be5d74, 0x80deb1fe, 0x9bdc06a7, 0xc19bf174,
  0xe49b69c1, 0xefbe4786, 0x0fc19dc6, 0x240ca1cc, 0x2de92c6f, 0x4a7484aa, 0x5cb0a9dc, 0x76f988da,
  0x983e5152, 0xa831c66d, 0xb00327c8, 0xbf597fc7, 0xc6e00bf3, 0xd5a79147, 0x06ca6351, 0x14292967,
  0x27b70a85, 0x2e1b2138, 0x4d2c6dfc, 0x53380d13, 0x650a7354, 0x766a0abb, 0x81c2c92e, 0x92722c85,
  0xa2bfe8a1, 0xa81a664b, 0xc24b8b70, 0xc76c51a3, 0xd192e819, 0xd6990624, 0xf40e3585, 0x106aa070,
  0x19a4c116, 0x1e376c08, 0x2748774c, 0x34b0bcb5, 0x391c0cb3, 0x4ed8aa4a, 0x5b9cca4f, 0x682e6ff3,
  0x748f82ee, 0x78a5636f, 0x84c87814, 0x8cc70208, 0x90befffa, 0xa4506ceb, 0xbef9a3f7, 0xc67178f2]

structure Chain where
  a : UInt32
  b : UInt32
  c : UInt32
  d : UInt32
  e : UInt32
  f : UInt32
  g : UInt32
  h : UInt32

def Chain.start : Chain :=
  { a := 0x6a09e667, b := 0xbb67ae85, c := 0x3c6ef372, d := 0xa54ff53a
    e := 0x510e527f, f := 0x9b05688c, g := 0x1f83d9ab, h := 0x5be0cd19 }

def Chain.add (x y : Chain) : Chain :=
  { a := x.a + y.a, b := x.b + y.b, c := x.c + y.c, d := x.d + y.d
    e := x.e + y.e, f := x.f + y.f, g := x.g + y.g, h := x.h + y.h }

/-- A one bit, then zeros up to eight bytes before the end of a block, then the length in bits. -/
def pad (message : List UInt8) : List UInt8 :=
  let size := message.length
  let zeros := (119 - size % 64) % 64
  let length := (List.range 8).map fun i => UInt8.ofNat ((8 * size) >>> (8 * (7 - i)))
  message ++ [0x80] ++ List.replicate zeros 0 ++ length

def wordAt (block : Array UInt8) (i : Nat) : UInt32 :=
  (List.range 4).foldl (fun w k => (w <<< 8) ||| (block.getD (4 * i + k) 0).toUInt32) 0

def extend (w : Array UInt32) : Array UInt32 :=
  let i := w.size
  let x := w.getD (i - 15) 0
  let y := w.getD (i - 2) 0
  let s0 := rotate x 7 ^^^ rotate x 18 ^^^ (x >>> 3)
  let s1 := rotate y 17 ^^^ rotate y 19 ^^^ (y >>> 10)
  w.push (w.getD (i - 16) 0 + s0 + w.getD (i - 7) 0 + s1)

def schedule (block : Array UInt8) : Array UInt32 :=
  let first := ((List.range 16).map (wordAt block)).toArray
  (List.range 48).foldl (fun w _ => extend w) first

def mix (s : Chain) (k w : UInt32) : Chain :=
  let s1 := rotate s.e 6 ^^^ rotate s.e 11 ^^^ rotate s.e 25
  let choice := (s.e &&& s.f) ^^^ (~~~ s.e &&& s.g)
  let t1 := s.h + s1 + choice + k + w
  let s0 := rotate s.a 2 ^^^ rotate s.a 13 ^^^ rotate s.a 22
  let majority := (s.a &&& s.b) ^^^ (s.a &&& s.c) ^^^ (s.b &&& s.c)
  { a := t1 + s0 + majority, b := s.a, c := s.b, d := s.c
    e := s.d + t1, f := s.e, g := s.f, h := s.g }

def compress (s : Chain) (block : Array UInt8) : Chain :=
  let w := schedule block
  s.add ((List.range 64).foldl (fun t i => mix t (roundConstants.getD i 0) (w.getD i 0)) s)

def digest (message : List UInt8) : Chain :=
  let bytes := (pad message).toArray
  (List.range (bytes.size / 64)).foldl
    (fun s i => compress s (bytes.extract (64 * i) (64 * i + 64))) Chain.start

end LPRounding.Random.Digest
