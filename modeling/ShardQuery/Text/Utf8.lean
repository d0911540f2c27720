/-!
Characters out of bytes of which some may spell none.
-/

namespace ShardQuery.Text

/-- The characters that bytes spell in UTF-8 from a place on. A byte that takes no part in a
character counts as `none`. -/
def charsFrom (bytes : ByteArray) (i : Nat) : List (Option Char) :=
  if i < bytes.size then
    match bytes.utf8DecodeChar? i with
    | some c => some c :: charsFrom bytes (i + c.utf8Size)
    | none => none :: charsFrom bytes (i + 1)
  else []
termination_by bytes.size - i
decreasing_by
  · have := c.utf8Size_pos
    omega
  · omega

/-- The characters that bytes spell in UTF-8. -/
def charsOfBytes (bytes : List UInt8) : List (Option Char) :=
  charsFrom (ByteArray.mk bytes.toArray) 0

end ShardQuery.Text
