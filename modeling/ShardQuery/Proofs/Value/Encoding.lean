import ShardQuery.Proofs.Value.Double
import ShardQuery.Proofs.Value.Order
import ShardQuery.Value.Encoding

/-!
The canonical encoding says what the order sees of a value, no less and no more. It is read off the
key of the value, and the key can be read back from the bytes, whatever comes after them, as long as
all lengths fit in four bytes and all instants in 64 bits of nanoseconds.
-/

namespace ShardQuery

/-! ## Numbers and texts as bytes -/

theorem length_bigEndian (width n : Nat) : (bigEndian width n).length = width := by
  induction width with
  | zero => rfl
  | succ width ih => rw [bigEndian, List.length_cons, ih]

theorem bigEndian_mod {width m n : Nat} (h : bigEndian width m = bigEndian width n) :
    m % 256 ^ width = n % 256 ^ width := by
  induction width with
  | zero => rw [Nat.pow_zero, Nat.mod_one, Nat.mod_one]
  | succ width ih =>
    rw [bigEndian, bigEndian, List.cons.injEq] at h
    have hhead : m / 256 ^ width % 256 = n / 256 ^ width % 256 := by
      simpa using congrArg UInt8.toNat h.1
    rw [Nat.pow_succ, Nat.mod_mul, Nat.mod_mul, ih h.2, hhead]

theorem bigEndian_append_inj {width m n : Nat} {r s : List UInt8} (hm : m < 256 ^ width)
    (hn : n < 256 ^ width) (h : bigEndian width m ++ r = bigEndian width n ++ s) :
    m = n ∧ r = s := by
  have hl : (bigEndian width m).length = (bigEndian width n).length := by
    rw [length_bigEndian, length_bigEndian]
  obtain ⟨hb, hr⟩ := List.append_inj h hl
  have hmod := bigEndian_mod hb
  rw [Nat.mod_eq_of_lt hm, Nat.mod_eq_of_lt hn] at hmod
  exact ⟨hmod, hr⟩

theorem longBytes_append_inj {m n : Int64} {r s : List UInt8}
    (h : longBytes m ++ r = longBytes n ++ s) : m = n ∧ r = s := by
  have hlt (k : Int64) : k.toUInt64.toNat < 256 ^ 8 := k.toUInt64.toNat_lt
  obtain ⟨hn, hr⟩ := bigEndian_append_inj (hlt m) (hlt n) h
  exact ⟨congrArg Int64.ofUInt64 (UInt64.toNat_inj.1 hn), hr⟩

/-- Something with its length before it. -/
theorem counted_append_inj {x y r s : List UInt8} (hx : x.length < 2 ^ 32) (hy : y.length < 2 ^ 32)
    (h : countBytes x.length ++ x ++ r = countBytes y.length ++ y ++ s) : x = y ∧ r = s := by
  have hx : x.length < 256 ^ 4 := hx
  have hy : y.length < 256 ^ 4 := hy
  rw [List.append_assoc, List.append_assoc] at h
  obtain ⟨hl, h⟩ := bigEndian_append_inj hx hy h
  exact List.append_inj h hl

theorem toList_loop (b : ByteArray) (i : Nat) (r : List UInt8) :
    ByteArray.toList.loop b i r = r.reverse ++ b.data.toList.drop i := by
  induction i, r using ByteArray.toList.loop.induct b with
  | case1 i r hi ih =>
    rw [ByteArray.toList.loop.eq_def, if_pos hi, ih]
    have hl : i < b.data.toList.length := hi
    rw [List.drop_eq_getElem_cons hl, List.reverse_cons, List.append_assoc]
    have hg : b.get! i = b.data.toList[i] := by
      change b.data[i]! = _
      rw [getElem!_pos b.data i hi]
      rfl
    rw [hg]
    rfl
  | case2 i r hi =>
    have hl : b.data.toList.length ≤ i := by simpa using hi
    rw [ByteArray.toList.loop.eq_def, if_neg hi, List.drop_eq_nil_of_le hl, List.append_nil]

theorem textBytes_inj {s t : String} (h : textBytes s = textBytes t) : s = t := by
  have htoList (b : ByteArray) : b.toList = b.data.toList := toList_loop b 0 []
  unfold textBytes at h
  rw [htoList, htoList] at h
  exact String.toByteArray_inj.1 (ByteArray.ext (Array.toList_inj.1 h))

/-! ## The encoding of a key -/

/-- The encoding of a number. -/
def numberBytes (whole : Int) (rest : Nat) : List UInt8 :=
  if rest = 0 ∧ -2 ^ 63 ≤ whole ∧ whole < 2 ^ 63 then 4 :: longBytes (Int64.ofInt whole)
  else 5 :: bigEndian 8 (Double.bitsAt (whole * Double.unit + rest))

mutual

/-- The encoding of all values with a key. -/
def Key.bytes : Key → List UInt8
  | .nothing rank => [UInt8.ofNat rank]
  | .boolean b => [3, if b then 1 else 0]
  | .number whole rest => numberBytes whole rest
  | .text s => 6 :: (countBytes (textBytes s).length ++ textBytes s)
  | .binary b => 7 :: (countBytes b.length ++ b)
  | .time seconds nanos => 8 :: longBytes ((Timestamp.epochNanos? ⟨seconds, nanos⟩).getD 0)
  | .array items => 9 :: (countBytes items.length ++ bytesItems items)
  | .map fields => 10 :: (countBytes fields.length ++ bytesFields fields)

def Key.bytesItems : List Key → List UInt8
  | [] => []
  | k :: rest => k.bytes ++ bytesItems rest

def Key.bytesFields : List (String × Key) → List UInt8
  | [] => []
  | (name, k) :: rest =>
    countBytes (textBytes name).length ++ textBytes name ++ k.bytes ++ bytesFields rest

end

theorem Double.rank_eq (d : Double) : d.rank = d.whole * unit + d.rest := by
  have hu : (0 : Int) < unit := by
    have := Nat.two_pow_pos 1074
    unfold unit
    omega
  have hr : (d.rest : Int) = d.rank % unit := Int.toNat_of_nonneg (Int.emod_nonneg _ (by omega))
  rw [hr, whole, Int.mul_comm]
  exact (Int.mul_ediv_add_emod ..).symm

theorem numberBytes_long (n : Int64) : numberBytes n.toInt 0 = 4 :: longBytes n := by
  unfold numberBytes
  rw [if_pos ⟨rfl, n.le_toInt, n.toInt_lt⟩, Int64.ofInt_toInt]

theorem flatten_doubleChunks (d : Double) :
    (doubleChunks d).flatten = numberBytes d.whole d.rest := by
  unfold doubleChunks Double.toLong? numberBytes
  split
  · rename_i hl
    split at hl
    · rename_i hw
      cases hl
      rw [if_pos hw]
      simp
    · cases hl
  · rename_i hl
    split at hl
    · cases hl
    · rename_i hw
      have hne : d.rank ≠ 0 := fun h0 => hw (d.isLong_of_rank h0)
      rw [if_neg hw, ← d.rank_eq, d.bitsAt_rank hne]
      simp

theorem keyItems_eq (items : List Value) : Value.keyItems items = items.map Value.key := by
  induction items with
  | nil => rfl
  | cons v rest ih => rw [Value.keyItems, ih, List.map_cons]

theorem keyFields_eq (fields : List (String × Value)) :
    Value.keyFields fields = fields.map fun f => (f.1, f.2.key) := by
  induction fields with
  | nil => rfl
  | cons f rest ih => rw [Value.keyFields, ih, List.map_cons]

theorem keyChunksFields_eq (fields : List (String × Value)) :
    Value.keyChunksFields fields = fields.map fun f =>
      (f.1, countBytes (textBytes f.1).length :: textBytes f.1 :: f.2.keyChunks) := by
  induction fields with
  | nil => rfl
  | cons f rest ih => rw [Value.keyChunksFields, ih, List.map_cons]

/-- Fields are sorted by their names alone. -/
theorem sortByName_map {α β : Type} (g : String × α → β) (fields : List (String × α)) :
    sortByName (fields.map fun f => (f.1, g f)) = (sortByName fields).map fun f => (f.1, g f) := by
  unfold sortByName
  rw [List.map_mergeSort]
  simp

mutual

theorem Value.keyBytes_eq (v : Value) : v.keyBytes = v.key.bytes := by
  match v with
  | .empty | .jsonNull | .null | .boolean _ | .text _ | .binary _ | .timestamp _ =>
    simp [keyBytes, keyChunks, key, Key.bytes]
  | .integer n =>
    have h := numberBytes_long n.toInt64
    rw [Int32.toInt_toInt64] at h
    simp [keyBytes, keyChunks, key, Key.bytes, h]
  | .long n => simp [keyBytes, keyChunks, key, Key.bytes, numberBytes_long]
  | .double d => simpa [keyBytes, keyChunks, key, Key.bytes] using flatten_doubleChunks d
  | .array items =>
    have h := flatten_keyChunksItems items
    simp [keyBytes, keyChunks, key, Key.bytes, h, keyItems_eq]
  | .map fields =>
    have h : ((sortByName (keyChunksFields fields)).flatMap (·.2)).flatten =
        Key.bytesFields (sortByName (keyFields fields)) := by
      have hmem : ∀ f ∈ sortByName fields, f.2.keyBytes = f.2.key.bytes := by
        intro f hf
        exact keyBytes_fields fields f (List.mem_mergeSort.1 hf)
      rw [keyChunksFields_eq, keyFields_eq, sortByName_map, sortByName_map]
      generalize sortByName fields = sorted at hmem
      induction sorted with
      | nil => rfl
      | cons f rest ih =>
        obtain ⟨hf, hrest⟩ := List.forall_mem_cons.1 hmem
        have hv : f.2.keyChunks.flatten = f.2.key.bytes := hf
        simp only [List.map_cons, List.flatMap_cons, List.flatten_append, List.flatten_cons, hv,
          Key.bytesFields, ih hrest]
        simp
    have hl : (sortByName (keyFields fields)).length = fields.length := by
      rw [keyFields_eq, sortByName, List.length_mergeSort, List.length_map]
    simp [keyBytes, keyChunks, key, Key.bytes, h, hl]

theorem Value.flatten_keyChunksItems (items : List Value) :
    (keyChunksItems items).flatten = Key.bytesItems (keyItems items) := by
  match items with
  | [] => rfl
  | v :: rest =>
    have hv : v.keyChunks.flatten = v.key.bytes := v.keyBytes_eq
    rw [keyChunksItems, List.flatten_append, hv, flatten_keyChunksItems rest, keyItems,
      Key.bytesItems]

theorem Value.keyBytes_fields (fields : List (String × Value)) :
    ∀ f ∈ fields, f.2.keyBytes = f.2.key.bytes := by
  match fields with
  | [] => exact List.forall_mem_nil _
  | f :: rest => exact List.forall_mem_cons.2 ⟨f.2.keyBytes_eq, keyBytes_fields rest⟩

end

/-! ## Reading keys back -/

mutual

/-- Whether a key can be read back from its encoding. -/
def Key.Readable : Key → Prop
  | .nothing rank => rank < 3
  | .boolean _ => True
  | .number whole rest => (rest = 0 ∧ -2 ^ 63 ≤ whole ∧ whole < 2 ^ 63) ∨
      ∃ d : Double, d.whole = whole ∧ d.rest = rest
  | .text s => (textBytes s).length < 2 ^ 32
  | .binary b => b.length < 2 ^ 32
  | .time seconds nanos => (Timestamp.epochNanos? ⟨seconds, nanos⟩).isSome ∧ nanos < 10 ^ 9
  | .array items => items.length < 2 ^ 32 ∧ ReadableItems items
  | .map fields => fields.length < 2 ^ 32 ∧ ReadableFields fields

def Key.ReadableItems : List Key → Prop
  | [] => True
  | k :: rest => k.Readable ∧ ReadableItems rest

def Key.ReadableFields : List (String × Key) → Prop
  | [] => True
  | (name, k) :: rest => (textBytes name).length < 2 ^ 32 ∧ k.Readable ∧ ReadableFields rest

end

/-- The bits of a double say what its key is. -/
theorem Double.key_of_canonical {d e : Double} (h : d.canonical = e.canonical) :
    d.whole = e.whole ∧ d.rest = e.rest := by
  have hrank (d : Double) : d.canonical.rank = d.rank := by
    unfold canonical
    split
    · rename_i hn
      simp only [rank, hn, ↓reduceIte]
      rfl
    · rfl
  have hr : d.rank = e.rank := by rw [← hrank d, ← hrank e, h]
  exact ⟨by rw [whole, whole, hr], by rw [rest, rest, hr]⟩

theorem numberBytes_double {d : Double}
    (h : ¬(d.rest = 0 ∧ -2 ^ 63 ≤ d.whole ∧ d.whole < 2 ^ 63)) :
    numberBytes d.whole d.rest = 5 :: bigEndian 8 d.canonical.bits.toNat := by
  have hne : d.rank ≠ 0 := fun h0 => h (d.isLong_of_rank h0)
  rw [numberBytes, if_neg h, ← d.rank_eq, d.bitsAt_rank hne]

theorem numberBytes_append_inj {v w : Int} {m n : Nat} {r s : List UInt8}
    (hv : (Key.number v m).Readable) (hw : (Key.number w n).Readable)
    (h : numberBytes v m ++ r = numberBytes w n ++ s) : v = w ∧ m = n ∧ r = s := by
  by_cases h1 : m = 0 ∧ -2 ^ 63 ≤ v ∧ v < 2 ^ 63 <;>
    by_cases h2 : n = 0 ∧ -2 ^ 63 ≤ w ∧ w < 2 ^ 63
  · rw [numberBytes, if_pos h1, numberBytes, if_pos h2, List.cons_append, List.cons_append,
      List.cons.injEq] at h
    obtain ⟨hn, hr⟩ := longBytes_append_inj h.2
    have := congrArg Int64.toInt hn
    rw [Int64.toInt_ofInt_of_le h1.2.1 h1.2.2, Int64.toInt_ofInt_of_le h2.2.1 h2.2.2] at this
    exact ⟨this, h1.1.trans h2.1.symm, hr⟩
  · rw [numberBytes, if_pos h1, numberBytes, if_neg h2] at h
    cases h
  · rw [numberBytes, if_neg h1, numberBytes, if_pos h2] at h
    cases h
  · obtain ⟨d, rfl, rfl⟩ := hv.resolve_left h1
    obtain ⟨e, rfl, rfl⟩ := hw.resolve_left h2
    rw [numberBytes_double h1, numberBytes_double h2, List.cons_append, List.cons_append,
      List.cons.injEq] at h
    obtain ⟨hb, hr⟩ := bigEndian_append_inj d.canonical.bits.toNat_lt e.canonical.bits.toNat_lt h.2
    have hc : d.canonical = e.canonical := congrArg Double.mk (UInt64.toNat_inj.1 hb)
    obtain ⟨hwhole, hrest⟩ := Double.key_of_canonical hc
    exact ⟨hwhole, hrest, hr⟩

theorem epochNanos_of_some {t : Timestamp} {n : Int64} (h : t.epochNanos? = some n) :
    t.epochNanos = n.toInt := by
  unfold Timestamp.epochNanos? at h
  split at h
  · rename_i hr
    cases h
    exact (Int64.toInt_ofInt_of_le hr.1 hr.2).symm
  · cases h

theorem timeBytes_append_inj {i j : Int} {m n : Nat} {r s : List UInt8}
    (hi : (Key.time i m).Readable) (hj : (Key.time j n).Readable)
    (h : (Key.time i m).bytes ++ r = (Key.time j n).bytes ++ s) : i = j ∧ m = n ∧ r = s := by
  obtain ⟨hi, hm⟩ := hi
  obtain ⟨hj, hn⟩ := hj
  obtain ⟨x, hx⟩ := Option.isSome_iff_exists.1 hi
  obtain ⟨y, hy⟩ := Option.isSome_iff_exists.1 hj
  rw [Key.bytes, Key.bytes, hx, hy, List.cons_append, List.cons_append, List.cons.injEq] at h
  obtain ⟨hxy, hr⟩ := longBytes_append_inj h.2
  have hxy : x = y := hxy
  have hnanos : (⟨i, m⟩ : Timestamp).epochNanos = (⟨j, n⟩ : Timestamp).epochNanos := by
    rw [epochNanos_of_some hx, epochNanos_of_some hy, hxy]
  simp only [Timestamp.epochNanos] at hnanos
  exact ⟨by omega, by omega, hr⟩

/-- The kind of the keys whose encoding begins with a byte. -/
def kindAt (tag : UInt8) : Nat :=
  if tag ≤ 2 then 7 else if tag = 3 then 3 else if tag ≤ 5 then 0 else if tag = 6 then 2
  else if tag = 7 then 4 else if tag = 8 then 1 else if tag = 9 then 5 else 6

theorem kindAt_bytes {a : Key} (h : a.Readable) :
    ∃ tag rest, a.bytes = tag :: rest ∧ kindAt tag = a.kindRank := by
  cases a with
  | number whole rest =>
    unfold Key.bytes numberBytes
    split <;> exact ⟨_, _, rfl, rfl⟩
  | nothing rank =>
    have : rank = 0 ∨ rank = 1 ∨ rank = 2 := by
      have : rank < 3 := h
      omega
    rcases this with rfl | rfl | rfl <;> exact ⟨_, _, rfl, rfl⟩
  | _ => exact ⟨_, _, rfl, rfl⟩

mutual

/-- No encoding is the beginning of another one. -/
theorem Key.bytes_append_inj (a b : Key) {r s : List UInt8} (ha : a.Readable) (hb : b.Readable)
    (h : a.bytes ++ r = b.bytes ++ s) : a = b ∧ r = s := by
  have hk : a.kindRank = b.kindRank := by
    obtain ⟨t, x, hx, hta⟩ := kindAt_bytes ha
    obtain ⟨u, y, hy, hub⟩ := kindAt_bytes hb
    rw [hx, hy, List.cons_append, List.cons_append, List.cons.injEq] at h
    rw [← hta, ← hub, h.1]
  cases a <;> cases b <;> first | (simp [kindRank] at hk; done) | clear hk
  case number.number v m w n =>
    obtain ⟨hvw, hmn, hr⟩ := numberBytes_append_inj ha hb h
    exact ⟨by rw [hvw, hmn], hr⟩
  case time.time i m j n =>
    obtain ⟨hij, hmn, hr⟩ := timeBytes_append_inj ha hb h
    exact ⟨by rw [hij, hmn], hr⟩
  case nothing.nothing m n =>
    have hm : m < 3 := ha
    have hn : n < 3 := hb
    rw [bytes, bytes, List.singleton_append, List.singleton_append, List.cons.injEq] at h
    have := congrArg UInt8.toNat h.1
    simp only [UInt8.toNat_ofNat'] at this
    exact ⟨congrArg Key.nothing (by omega), h.2⟩
  case boolean.boolean p q =>
    simp only [bytes, List.cons_append, List.nil_append, List.cons.injEq, true_and] at h
    refine ⟨congrArg Key.boolean ?_, h.2⟩
    cases p <;> cases q <;> simp at h ⊢
  case text.text x y =>
    rw [bytes, bytes, List.cons_append, List.cons_append, List.cons.injEq] at h
    obtain ⟨hxy, hr⟩ := counted_append_inj ha hb h.2
    exact ⟨congrArg Key.text (textBytes_inj hxy), hr⟩
  case binary.binary x y =>
    rw [bytes, bytes, List.cons_append, List.cons_append, List.cons.injEq] at h
    obtain ⟨hxy, hr⟩ := counted_append_inj ha hb h.2
    exact ⟨congrArg Key.binary hxy, hr⟩
  case array.array xs ys =>
    rw [bytes, bytes, List.cons_append, List.cons_append, List.cons.injEq, List.append_assoc,
      List.append_assoc] at h
    have hx : xs.length < 256 ^ 4 := ha.1
    have hy : ys.length < 256 ^ 4 := hb.1
    obtain ⟨hl, h⟩ := bigEndian_append_inj hx hy h.2
    obtain ⟨hxy, hr⟩ := bytesItems_append_inj xs ys hl ha.2 hb.2 h
    exact ⟨congrArg Key.array hxy, hr⟩
  case map.map xs ys =>
    rw [bytes, bytes, List.cons_append, List.cons_append, List.cons.injEq, List.append_assoc,
      List.append_assoc] at h
    have hx : xs.length < 256 ^ 4 := ha.1
    have hy : ys.length < 256 ^ 4 := hb.1
    obtain ⟨hl, h⟩ := bigEndian_append_inj hx hy h.2
    obtain ⟨hxy, hr⟩ := bytesFields_append_inj xs ys hl ha.2 hb.2 h
    exact ⟨congrArg Key.map hxy, hr⟩

theorem Key.bytesItems_append_inj (xs ys : List Key) {r s : List UInt8}
    (hl : xs.length = ys.length) (hx : ReadableItems xs) (hy : ReadableItems ys)
    (h : bytesItems xs ++ r = bytesItems ys ++ s) : xs = ys ∧ r = s := by
  match xs, ys with
  | [], [] => exact ⟨rfl, h⟩
  | x :: xs, y :: ys =>
    rw [bytesItems, bytesItems, List.append_assoc, List.append_assoc] at h
    obtain ⟨hxy, h⟩ := bytes_append_inj x y hx.1 hy.1 h
    obtain ⟨hrest, hr⟩ := bytesItems_append_inj xs ys (Nat.succ.inj hl) hx.2 hy.2 h
    exact ⟨by rw [hxy, hrest], hr⟩

theorem Key.bytesFields_append_inj (xs ys : List (String × Key)) {r s : List UInt8}
    (hl : xs.length = ys.length) (hx : ReadableFields xs) (hy : ReadableFields ys)
    (h : bytesFields xs ++ r = bytesFields ys ++ s) : xs = ys ∧ r = s := by
  match xs, ys with
  | [], [] => exact ⟨rfl, h⟩
  | (m, x) :: xs, (n, y) :: ys =>
    simp only [bytesFields, List.append_assoc] at h
    rw [← List.append_assoc, ← List.append_assoc (countBytes (textBytes n).length)] at h
    obtain ⟨hmn, h⟩ := counted_append_inj hx.1 hy.1 h
    obtain ⟨hxy, h⟩ := bytes_append_inj x y hx.2.1 hy.2.1 h
    obtain ⟨hrest, hr⟩ := bytesFields_append_inj xs ys (Nat.succ.inj hl) hx.2.2 hy.2.2 h
    exact ⟨by rw [textBytes_inj hmn, hxy, hrest], hr⟩

end

/-! ## What the encoding sees -/

namespace Timestamp

/-- The instant that the encoding says: the epoch for all that 64 bits of nanoseconds do not
reach. -/
def encoded (t : Timestamp) : Timestamp :=
  let nanos := (t.epochNanos?.getD 0).toInt
  ⟨nanos / 10 ^ 9, (nanos % 10 ^ 9).toNat⟩

theorem epochNanos_encoded (t : Timestamp) :
    t.encoded.epochNanos = (t.epochNanos?.getD 0).toInt := by
  simp only [encoded, epochNanos]
  omega

theorem encoded_epochNanos? (t : Timestamp) :
    t.encoded.epochNanos? = some (t.epochNanos?.getD 0) := by
  unfold epochNanos?
  rw [epochNanos_encoded, if_pos ⟨Int64.le_toInt _, Int64.toInt_lt _⟩, Int64.ofInt_toInt]
  rfl

end Timestamp

mutual

/-- What the encoding sees of a key. -/
def Key.encoded : Key → Key
  | .time seconds nanos =>
    .time (Timestamp.encoded ⟨seconds, nanos⟩).seconds (Timestamp.encoded ⟨seconds, nanos⟩).nanos
  | .array items => .array (encodedItems items)
  | .map fields => .map (encodedFields fields)
  | k => k

def Key.encodedItems : List Key → List Key
  | [] => []
  | k :: rest => k.encoded :: encodedItems rest

def Key.encodedFields : List (String × Key) → List (String × Key)
  | [] => []
  | (name, k) :: rest => (name, k.encoded) :: encodedFields rest

end

theorem encodedItems_eq (items : List Key) : Key.encodedItems items = items.map Key.encoded := by
  induction items with
  | nil => rfl
  | cons k rest ih => rw [Key.encodedItems, ih, List.map_cons]

theorem encodedFields_eq (fields : List (String × Key)) :
    Key.encodedFields fields = fields.map fun f => (f.1, f.2.encoded) := by
  induction fields with
  | nil => rfl
  | cons f rest ih => rw [Key.encodedFields, ih, List.map_cons]

mutual

theorem Key.bytes_encoded (k : Key) : k.encoded.bytes = k.bytes := by
  match k with
  | .nothing _ | .boolean _ | .number _ _ | .text _ | .binary _ => rfl
  | .time seconds nanos =>
    have h := Timestamp.encoded_epochNanos? ⟨seconds, nanos⟩
    unfold encoded bytes
    rw [h, Option.getD_some]
  | .array items =>
    rw [encoded, bytes, bytes, bytesItems_encoded items, encodedItems_eq, List.length_map]
  | .map fields =>
    rw [encoded, bytes, bytes, bytesFields_encoded fields, encodedFields_eq, List.length_map]

theorem Key.bytesItems_encoded (items : List Key) :
    bytesItems (encodedItems items) = bytesItems items := by
  match items with
  | [] => rfl
  | k :: rest => rw [encodedItems, bytesItems, bytes_encoded k, bytesItems_encoded rest, bytesItems]

theorem Key.bytesFields_encoded (fields : List (String × Key)) :
    bytesFields (encodedFields fields) = bytesFields fields := by
  match fields with
  | [] => rfl
  | (name, k) :: rest =>
    rw [encodedFields, bytesFields, bytes_encoded k, bytesFields_encoded rest, bytesFields]

end

/-! ## Values that are encoded faithfully -/

namespace Value

/-- Whether four bytes can hold the lengths that are encoded with a value. -/
def isShort : Value → Bool
  | .text s => (textBytes s).length < 2 ^ 32
  | .binary bytes => bytes.length < 2 ^ 32
  | .array items => items.length < 2 ^ 32
  | .map fields => fields.length < 2 ^ 32 && fields.all fun f => (textBytes f.1).length < 2 ^ 32
  | _ => true

/-- Whether a timestamp is one that a count of nanoseconds in 64 bits can tell from all others. -/
def isCounted : Value → Bool
  | .timestamp t => t.epochNanos?.isSome && !t.isLeapSecond
  | _ => true

mutual

/-- Whether something is so of a value and of all values in it. -/
def everywhere (p : Value → Bool) : Value → Bool
  | .array items => p (.array items) && everywhereItems p items
  | .map fields => p (.map fields) && everywhereFields p fields
  | v => p v

def everywhereItems (p : Value → Bool) : List Value → Bool
  | [] => true
  | v :: rest => v.everywhere p && everywhereItems p rest

def everywhereFields (p : Value → Bool) : List (String × Value) → Bool
  | [] => true
  | (_, v) :: rest => v.everywhere p && everywhereFields p rest

end

end Value

theorem readableItems_iff {keys : List Key} :
    Key.ReadableItems keys ↔ ∀ k ∈ keys, k.Readable := by
  induction keys with
  | nil => simp [Key.ReadableItems]
  | cons k rest ih => simp [Key.ReadableItems, ih]

theorem readableFields_iff {fields : List (String × Key)} :
    Key.ReadableFields fields ↔
      ∀ f ∈ fields, (textBytes f.1).length < 2 ^ 32 ∧ f.2.Readable := by
  induction fields with
  | nil => simp [Key.ReadableFields]
  | cons f rest ih => simp [Key.ReadableFields, ih, and_assoc]

theorem Timestamp.readable_encoded (t : Timestamp) :
    (Key.time t.encoded.seconds t.encoded.nanos).Readable := by
  refine ⟨?_, ?_⟩
  · rw [t.encoded_epochNanos?]
    rfl
  · simp only [encoded]
    omega

namespace Value

mutual

/-- What the encoding sees of a value can be read back if the lengths fit. -/
theorem readable_encoded (v : Value) (hs : v.everywhere isShort = true) :
    v.key.encoded.Readable := by
  match v with
  | .empty => exact (by decide : 0 < 3)
  | .jsonNull => exact (by decide : 1 < 3)
  | .null => exact (by decide : 2 < 3)
  | .boolean _ => trivial
  | .integer n =>
    rw [key, ← Int32.toInt_toInt64]
    exact .inl ⟨rfl, n.toInt64.le_toInt, n.toInt64.toInt_lt⟩
  | .long n => exact .inl ⟨rfl, n.le_toInt, n.toInt_lt⟩
  | .double d => exact .inr ⟨d, rfl, rfl⟩
  | .text _ | .binary _ =>
    simp only [everywhere, isShort, decide_eq_true_eq] at hs
    exact hs
  | .timestamp t => exact t.readable_encoded
  | .array items =>
    simp only [everywhere, isShort, Bool.and_eq_true, decide_eq_true_eq] at hs
    rw [key, Key.encoded, encodedItems_eq, keyItems_eq]
    refine ⟨?_, ?_⟩
    · rw [List.length_map, List.length_map]
      exact hs.1
    · rw [readableItems_iff, List.forall_mem_map, List.forall_mem_map]
      exact readable_encodedItems items hs.2
  | .map fields =>
    simp only [everywhere, isShort, Bool.and_eq_true, decide_eq_true_eq, List.all_eq_true] at hs
    rw [key, Key.encoded, encodedFields_eq, keyFields_eq]
    refine ⟨?_, ?_⟩
    · rw [List.length_map, sortByName, List.length_mergeSort, List.length_map]
      exact hs.1.1
    · rw [readableFields_iff, List.forall_mem_map]
      intro f hf
      obtain ⟨g, hg, rfl⟩ := List.mem_map.1 (List.mem_mergeSort.1 hf)
      exact ⟨hs.1.2 g hg, readable_encodedFields fields hs.2 g hg⟩

theorem readable_encodedItems (items : List Value) (hs : everywhereItems isShort items = true) :
    ∀ v ∈ items, v.key.encoded.Readable := by
  match items with
  | [] => exact List.forall_mem_nil _
  | v :: rest =>
    rw [everywhereItems, Bool.and_eq_true] at hs
    exact List.forall_mem_cons.2 ⟨readable_encoded v hs.1, readable_encodedItems rest hs.2⟩

theorem readable_encodedFields (fields : List (String × Value))
    (hs : everywhereFields isShort fields = true) : ∀ f ∈ fields, f.2.key.encoded.Readable := by
  match fields with
  | [] => exact List.forall_mem_nil _
  | (_, v) :: rest =>
    rw [everywhereFields, Bool.and_eq_true] at hs
    exact List.forall_mem_cons.2 ⟨readable_encoded v hs.1, readable_encodedFields rest hs.2⟩

end

mutual

/-- The encoding sees all of a value whose instants can all be counted. -/
theorem encoded_key (v : Value) (hc : v.everywhere isCounted = true) :
    v.key.encoded = v.key := by
  match v with
  | .empty | .jsonNull | .null | .boolean _ | .integer _ | .long _ | .double _ | .text _
  | .binary _ => rfl
  | .timestamp t =>
    simp only [everywhere, isCounted, Bool.and_eq_true, Bool.not_eq_true', Timestamp.isLeapSecond,
      decide_eq_false_iff_not, Nat.not_le] at hc
    obtain ⟨n, hn⟩ := Option.isSome_iff_exists.1 hc.1
    have hcount := epochNanos_of_some hn
    simp only [Timestamp.epochNanos] at hcount
    simp only [key, Key.encoded, Timestamp.encoded, hn, Option.getD_some, ← hcount]
    congr 1 <;> omega
  | .array items =>
    simp only [everywhere, isCounted, Bool.true_and] at hc
    rw [key, Key.encoded, encodedItems_eq, keyItems_eq, List.map_map]
    exact congrArg Key.array (List.map_congr_left (encoded_keyItems items hc))
  | .map fields =>
    simp only [everywhere, isCounted, Bool.true_and] at hc
    rw [key, Key.encoded, encodedFields_eq, keyFields_eq]
    refine congrArg Key.map ((List.map_congr_left (g := id) fun f hf => ?_).trans (List.map_id _))
    obtain ⟨g, hg, rfl⟩ := List.mem_map.1 (List.mem_mergeSort.1 hf)
    rw [encoded_keyFields fields hc g hg]
    rfl

theorem encoded_keyItems (items : List Value) (hc : everywhereItems isCounted items = true) :
    ∀ v ∈ items, v.key.encoded = v.key := by
  match items with
  | [] => exact List.forall_mem_nil _
  | v :: rest =>
    rw [everywhereItems, Bool.and_eq_true] at hc
    exact List.forall_mem_cons.2 ⟨encoded_key v hc.1, encoded_keyItems rest hc.2⟩

theorem encoded_keyFields (fields : List (String × Value))
    (hc : everywhereFields isCounted fields = true) : ∀ f ∈ fields, f.2.key.encoded = f.2.key := by
  match fields with
  | [] => exact List.forall_mem_nil _
  | (_, v) :: rest =>
    rw [everywhereFields, Bool.and_eq_true] at hc
    exact List.forall_mem_cons.2 ⟨encoded_key v hc.1, encoded_keyFields rest hc.2⟩

end

end Value

theorem keyBytes_eq_bytesItems (vs : List Value) :
    keyBytes vs = Key.bytesItems (vs.map fun v => v.key.encoded) := by
  induction vs with
  | nil => rfl
  | cons v rest ih =>
    rw [List.map_cons, Key.bytesItems, ← ih, Key.bytes_encoded, ← v.keyBytes_eq]
    rfl

/-- Encodings of values, one after the other, say what they see of the values, whatever follows. -/
theorem keyBytes_append_inj {vs ws : List Value} {r s : List UInt8} (hl : vs.length = ws.length)
    (hv : ∀ v ∈ vs, v.everywhere Value.isShort = true)
    (hw : ∀ w ∈ ws, w.everywhere Value.isShort = true)
    (h : keyBytes vs ++ r = keyBytes ws ++ s) :
    ((vs.map fun v => v.key.encoded) = ws.map fun w => w.key.encoded) ∧ r = s := by
  rw [keyBytes_eq_bytesItems, keyBytes_eq_bytesItems] at h
  apply Key.bytesItems_append_inj _ _ _ _ _ h
  · rwa [List.length_map, List.length_map]
  · rw [readableItems_iff, List.forall_mem_map]
    exact fun v hm => v.readable_encoded (hv v hm)
  · rw [readableItems_iff, List.forall_mem_map]
    exact fun w hm => w.readable_encoded (hw w hm)

theorem keyBytes_eq_iff {vs ws : List Value} (hl : vs.length = ws.length)
    (hv : ∀ v ∈ vs, v.everywhere Value.isShort = true)
    (hw : ∀ w ∈ ws, w.everywhere Value.isShort = true) :
    keyBytes vs = keyBytes ws ↔
      (vs.map fun v => v.key.encoded) = ws.map fun w => w.key.encoded := by
  constructor
  · intro h
    exact (keyBytes_append_inj hl hv hw (congrArg (· ++ []) h)).1
  · intro h
    rw [keyBytes_eq_bytesItems, keyBytes_eq_bytesItems, h]

end ShardQuery
