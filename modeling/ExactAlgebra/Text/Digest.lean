import ExactAlgebra.Text.Quoted

/-!
# Digests of texts

The digest of a text is the unkeyed BLAKE2b hash of its UTF-8 bytes, cut to eight
bytes and written in hexadecimal.  A state of eight words absorbs the bytes in
blocks of 128; each block passes through twelve rounds of mixing.
-/

namespace ExactAlgebra.Text.Digest

/-! ## Words and blocks -/

/-- The fractional parts of the square roots of the first eight primes. -/
def rootWords : Vector UInt64 8 := #v[
  0x6a09e667f3bcc908, 0xbb67ae8584caa73b, 0x3c6ef372fe94f82b, 0xa54ff53a5f1d36f1,
  0x510e527fade682d1, 0x9b05688c2b3e6c1f, 0x1f83d9abfb41bd6b, 0x5be0cd19137e2179]

/-- The order in which a round takes the words of a block. -/
def schedules : List (Vector (Fin 16) 16) := [
  #v[0, 1, 2, 3, 4, 5, 6, 7, 8, 9, 10, 11, 12, 13, 14, 15],
  #v[14, 10, 4, 8, 9, 15, 13, 6, 1, 12, 0, 2, 11, 7, 5, 3],
  #v[11, 8, 12, 0, 5, 2, 15, 13, 10, 14, 3, 6, 7, 1, 9, 4],
  #v[7, 9, 3, 1, 13, 12, 11, 14, 2, 6, 5, 10, 4, 0, 15, 8],
  #v[9, 0, 5, 7, 2, 4, 10, 15, 14, 1, 11, 12, 6, 8, 3, 13],
  #v[2, 12, 6, 10, 0, 11, 8, 3, 4, 13, 7, 5, 15, 14, 1, 9],
  #v[12, 5, 1, 15, 14, 13, 4, 10, 0, 7, 6, 3, 9, 2, 8, 11],
  #v[13, 11, 7, 14, 12, 1, 3, 9, 5, 0, 15, 4, 8, 6, 2, 10],
  #v[6, 15, 14, 9, 11, 3, 0, 8, 12, 2, 13, 7, 1, 4, 10, 5],
  #v[10, 2, 8, 4, 7, 6, 1, 5, 15, 11, 9, 14, 3, 12, 13, 0],
  #v[0, 1, 2, 3, 4, 5, 6, 7, 8, 9, 10, 11, 12, 13, 14, 15],
  #v[14, 10, 4, 8, 9, 15, 13, 6, 1, 12, 0, 2, 11, 7, 5, 3]]

/-- The number that bytes denote, the least significant byte first. -/
def littleEndian (bytes : List UInt8) : Nat :=
  bytes.foldr (fun byte value => byte.toNat + 256 * value) 0

/-- The word of a block at a place; bytes beyond the end are zero. -/
def wordAt (block : List UInt8) (place : Nat) : UInt64 :=
  UInt64.ofNat (littleEndian ((block.drop (8 * place)).take 8))

/-- A word rotated to the right. -/
def rotate (word count : UInt64) : UInt64 := (word >>> count) ||| (word <<< (64 - count))

/-! ## Compression -/

/-- Mixes two words of a block into four words of the working vector. -/
def mix (v : Vector UInt64 16) (a b c d : Fin 16) (x y : UInt64) : Vector UInt64 16 :=
  let v := v.set a (v[a] + v[b] + x)
  let v := v.set d (rotate (v[d] ^^^ v[a]) 32)
  let v := v.set c (v[c] + v[d])
  let v := v.set b (rotate (v[b] ^^^ v[c]) 24)
  let v := v.set a (v[a] + v[b] + y)
  let v := v.set d (rotate (v[d] ^^^ v[a]) 16)
  let v := v.set c (v[c] + v[d])
  v.set b (rotate (v[b] ^^^ v[c]) 63)

/-- One round: the columns of the working vector, and then its diagonals. -/
def round (words : Vector UInt64 16) (v : Vector UInt64 16) (order : Vector (Fin 16) 16) :
    Vector UInt64 16 :=
  let word (place : Fin 16) : UInt64 := words[order[place]]
  let v := mix v 0 4 8 12 (word 0) (word 1)
  let v := mix v 1 5 9 13 (word 2) (word 3)
  let v := mix v 2 6 10 14 (word 4) (word 5)
  let v := mix v 3 7 11 15 (word 6) (word 7)
  let v := mix v 0 5 10 15 (word 8) (word 9)
  let v := mix v 1 6 11 12 (word 10) (word 11)
  let v := mix v 2 7 8 13 (word 12) (word 13)
  mix v 3 4 9 14 (word 14) (word 15)

/-- The state after a block, with `total` bytes absorbed up to its end. -/
def compress (state : Vector UInt64 8) (block : List UInt8) (total : Nat) (last : Bool) :
    Vector UInt64 8 :=
  let words : Vector UInt64 16 := Vector.ofFn fun place => wordAt block place
  let start := state ++ rootWords
  let start := start.set 12 (start[12] ^^^ UInt64.ofNat total)
  let start := if last then start.set 14 (~~~start[14]) else start
  let mixed := schedules.foldl (round words) start
  Vector.ofFn fun place =>
    state[place] ^^^ mixed[place.val] ^^^ mixed[place.val + 8]

/-- Absorbs bytes, of which `before` came earlier; the last block may be short. -/
def absorb (state : Vector UInt64 8) (before : Nat) (bytes : List UInt8) : Vector UInt64 8 :=
  if 128 < bytes.length then
    absorb (compress state (bytes.take 128) (before + 128) false) (before + 128)
      (bytes.drop 128)
  else compress state bytes (before + bytes.length) true
termination_by bytes.length
decreasing_by
  rw [List.length_drop]
  omega

/-! ## The digest -/

/-- The state before any block, for digests of eight bytes. -/
def start : Vector UInt64 8 := rootWords.set 0 (rootWords[0] ^^^ 0x01010008)

/-- The bytes of a word, the least significant first. -/
def wordBytes (word : UInt64) : List Nat :=
  (List.range 8).map fun place => word.toNat / Nat.pow 256 place % 256

/-- The digest of a text in hexadecimal. -/
def ofText (text : String) : String :=
  let state := absorb start 0 text.toUTF8.toList
  String.join ((wordBytes state[0]).map (hexadecimal 2))

end ExactAlgebra.Text.Digest
