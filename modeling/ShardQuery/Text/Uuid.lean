/-!
Universally unique identifiers and their texts.
-/

namespace ShardQuery

/-- 128 bits. -/
structure Uuid where
  bits : BitVec 128
  deriving DecidableEq, Inhabited, Repr

namespace Uuid

/-- The 32 digits. -/
def digits (u : Uuid) : List Char :=
  let ds := Nat.toDigits 16 u.bits.toNat
  List.replicate (32 - ds.length) '0' ++ ds

/-- Groups of 8, 4, 4, 4 and 12 digits with hyphens between them. -/
def render (u : Uuid) : List Char :=
  let ds := u.digits
  ds.take 8 ++ ['-'] ++ (ds.drop 8).take 4 ++ ['-'] ++ (ds.drop 12).take 4 ++ ['-'] ++
    (ds.drop 16).take 4 ++ ['-'] ++ ds.drop 20

def text (u : Uuid) : String := String.ofList u.render

def digit? (c : Char) : Option Nat :=
  if '0' ≤ c && c ≤ '9' then some (c.toNat - 48)
  else if 'a' ≤ c && c ≤ 'f' then some (c.toNat - 87)
  else if 'A' ≤ c && c ≤ 'F' then some (c.toNat - 55)
  else none

/-- An identifier from 32 digits of either case. -/
def ofDigits? (ds : List Char) : Option Uuid :=
  if ds.length = 32 then
    (ds.foldlM (fun n c => (digit? c).map (16 * n + ·)) 0).map fun n => ⟨BitVec.ofNat 128 n⟩
  else none

/-- An identifier from its groups of digits. -/
def ofGroups? (cs : List Char) : Option Uuid :=
  if cs.length = 36 && [8, 13, 18, 23].all (fun i => cs[i]? == some '-') then
    ofDigits? (cs.take 8 ++ (cs.drop 9).take 4 ++ (cs.drop 14).take 4 ++ (cs.drop 19).take 4 ++
      cs.drop 24)
  else none

/-- Reads the plain digits or the groups, which may stand in braces or after `urn:uuid:`. -/
def parse? (s : String) : Option Uuid :=
  match s.toList with
  | '\x7b' :: rest => if rest.getLast? = some '\x7d' then ofGroups? rest.dropLast else none
  | 'u' :: 'r' :: 'n' :: ':' :: 'u' :: 'u' :: 'i' :: 'd' :: ':' :: rest => ofGroups? rest
  | cs => (ofDigits? cs).orElse fun _ => ofGroups? cs

end Uuid
end ShardQuery
