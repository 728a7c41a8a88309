/-!
The 32-bit Mersenne twister: a state of 624 words, refilled as a whole when it is used up, and the
draws built on its words.
-/

namespace LPRounding.Random

structure Twister where
  words : Array UInt32
  position : Nat

namespace Twister

def size : Nat := 624

def word (s : Array UInt32) (i : Nat) : UInt32 := s.getD i 0

def spread (w : UInt32) : UInt32 := w ^^^ (w >>> 30)

def ofWord (seed : UInt32) : Array UInt32 :=
  (List.range (size - 1)).foldl
    (fun s i => s.push (1812433253 * spread (word s i) + UInt32.ofNat (i + 1))) #[seed]

def write (s : Array UInt32) (i : Nat) (w : UInt32) : Array UInt32 × Nat :=
  let s := s.setIfInBounds i w
  if i + 1 < size then (s, i + 1) else (s.setIfInBounds 0 w, 1)

def ofKey (key : Array UInt32) : Twister :=
  let start := ofWord 19650218
  let (s, i) := (List.range (max size key.size)).foldl
    (fun (s, i) k =>
      let j := k % key.size
      write s i ((word s i ^^^ (spread (word s (i - 1)) * 1664525)) + word key j + UInt32.ofNat j))
    (start, 1)
  let (s, _) := (List.range (size - 1)).foldl
    (fun (s, i) _ =>
      write s i ((word s i ^^^ (spread (word s (i - 1)) * 1566083941)) - UInt32.ofNat i))
    (s, i)
  { words := s.setIfInBounds 0 0x80000000, position := size }

def ofSeed (seed : UInt32) : Twister := ofKey #[seed]

def refill (s : Array UInt32) : Array UInt32 :=
  (List.range size).foldl
    (fun s k =>
      let y := (word s k &&& 0x80000000) ||| (word s ((k + 1) % size) &&& 0x7FFFFFFF)
      let odd : UInt32 := if y &&& 1 == 0 then 0 else 0x9908B0DF
      s.setIfInBounds k (word s ((k + 397) % size) ^^^ (y >>> 1) ^^^ odd)) s

def temper (y : UInt32) : UInt32 :=
  let y := y ^^^ (y >>> 11)
  let y := y ^^^ ((y <<< 7) &&& 0x9D2C5680)
  let y := y ^^^ ((y <<< 15) &&& 0xEFC60000)
  y ^^^ (y >>> 18)

def next (t : Twister) : UInt32 × Twister :=
  let t := if t.position < size then t else { words := refill t.words, position := 0 }
  (temper (word t.words t.position), { t with position := t.position + 1 })

def fraction (t : Twister) : Nat × Twister :=
  let (a, t) := t.next
  let (b, t) := t.next
  ((a >>> 5).toNat <<< 26 + (b >>> 6).toNat, t)

/-- `k` bits, lowest word first; the last word gives its leading bits. -/
def bits (k : Nat) (t : Twister) : Nat × Twister :=
  if k ≤ 32 then
    let (w, t) := t.next
    ((w >>> UInt32.ofNat (32 - k)).toNat, t)
  else
    let (w, t) := t.next
    let (rest, t) := bits (k - 32) t
    (w.toNat + rest <<< 32, t)
  termination_by k

/-- Draws as many bits as `n` has until they give a number below `n`. -/
def belowWithin (n : Nat) : Nat → Twister → Nat × Twister
  | 0, t => (0, t)
  | tries + 1, t =>
    let (r, t) := bits (n.log2 + 1) t
    if r < n then (r, t) else belowWithin n tries t

/-- Each try succeeds at least every second time, so the allowance is never used up in practice. -/
def below (n : Nat) (t : Twister) : Nat × Twister := belowWithin n 4096 t

def unit (t : Twister) : Float × Twister :=
  let (n, t) := t.fraction
  ((Float.ofNat n).scaleB (-53), t)

end Twister

end LPRounding.Random
