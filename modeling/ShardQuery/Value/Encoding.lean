import ShardQuery.Value.Order

/-!
The canonical encoding of values as bytes. Numbers that are equal have one encoding whatever their
width, and records have one encoding whatever the order of their fields.
-/

namespace ShardQuery

/-- The low `width` bytes of a number, the highest first. -/
def bigEndian : Nat → Nat → List UInt8
  | 0, _ => []
  | width + 1, n => UInt8.ofNat (n / 256 ^ width) :: bigEndian width n

/-- A count of bytes, items or fields in four bytes. -/
def countBytes (n : Nat) : List UInt8 := bigEndian 4 n

def longBytes (n : Int64) : List UInt8 := bigEndian 8 n.toUInt64.toNat

def textBytes (s : String) : List UInt8 := s.toUTF8.toList

/-- A double that equals a long takes the encoding of the long. -/
def doubleChunks (d : Double) : List (List UInt8) :=
  match d.toLong? with
  | some n => [[4], longBytes n]
  | none => [[5], bigEndian 8 d.canonical.bits.toNat]

mutual

/-- The encoding in the pieces in which it is appended to a buffer. -/
def Value.keyChunks : Value → List (List UInt8)
  | .empty => [[0]]
  | .jsonNull => [[1]]
  | .null => [[2]]
  | .boolean b => [[3], [if b then 1 else 0]]
  | .integer n => [[4], longBytes n.toInt64]
  | .long n => [[4], longBytes n]
  | .double d => doubleChunks d
  | .text s => [[6], countBytes (textBytes s).length, textBytes s]
  | .binary bytes => [[7], countBytes bytes.length, bytes]
  | .timestamp t => [[8], longBytes (t.epochNanos?.getD 0)]
  | .array items => [9] :: countBytes items.length :: keyChunksItems items
  | .map fields =>
    [10] :: countBytes fields.length :: (sortByName (keyChunksFields fields)).flatMap (·.2)

def Value.keyChunksItems : List Value → List (List UInt8)
  | [] => []
  | v :: rest => v.keyChunks ++ keyChunksItems rest

/-- Each field's name beside the pieces for its name and value. -/
def Value.keyChunksFields : List (String × Value) → List (String × List (List UInt8))
  | [] => []
  | (name, v) :: rest =>
    (name, countBytes (textBytes name).length :: textBytes name :: v.keyChunks)
      :: keyChunksFields rest

end

/-- The canonical encoding. -/
def Value.keyBytes (v : Value) : List UInt8 := v.keyChunks.flatten

/-- The encodings of some values, one after the other. -/
def keyBytes (vs : List Value) : List UInt8 := vs.flatMap Value.keyBytes

/-- A byte buffer as the memory accounting sees it: bytes used and bytes reserved. -/
structure Buffer where
  used : Nat
  capacity : Nat
  deriving DecidableEq, Repr

namespace Buffer

def withCapacity (capacity : Nat) : Buffer := ⟨0, capacity⟩

/-- Appends `n` bytes. A buffer that is too small doubles, or grows to what is needed if that is
more, and never to less than 8 bytes. -/
def append (b : Buffer) (n : Nat) : Buffer :=
  if b.used + n ≤ b.capacity then ⟨b.used + n, b.capacity⟩
  else ⟨b.used + n, max (2 * b.capacity) (max (b.used + n) 8)⟩

/-- The buffer after the encodings of some values were appended to it. -/
def appendKeys (b : Buffer) (vs : List Value) : Buffer :=
  (vs.flatMap Value.keyChunks).foldl (fun b chunk => b.append chunk.length) b

end Buffer
end ShardQuery
