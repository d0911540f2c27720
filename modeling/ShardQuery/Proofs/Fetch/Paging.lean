import ShardQuery.Fetch.Cluster
import ShardQuery.Proofs.Text.Json

/-!
Sources read page by page: every answer says how to go on, until one does not. A page ends where the
next one starts, so the pages hold the rows of their source in order, whatever the limits.
-/

namespace ShardQuery

theorem Json.word32?_int {n : Nat} (h : n < 2 ^ 32) : word32? (.int n) = some n := by
  have hn : (n : Int) < 4294967296 := by omega
  simp [word32?, nat?, hn]

theorem Json.word64?_int {n : Nat} (h : n < 2 ^ 64) : word64? (.int n) = some n := by
  have hn : (n : Int) < 18446744073709551616 := by omega
  simp [word64?, nat?, hn]

namespace Cursor

theorem printable {c : Cursor} (hs : c.subset < 2 ^ 32) (ho : c.offset < 2 ^ 64) :
    c.toJson.Printable := by
  refine ⟨⟨?_, ?_⟩, ⟨?_, ?_⟩, trivial⟩ <;> omega

theorem ofJson?_toJson {c : Cursor} (hs : c.subset < 2 ^ 32) (ho : c.offset < 2 ^ 64) :
    ofJson? c.toJson = some c := by
  have hfields : Json.fieldsOf? ["subset", "offset"] c.toJson =
      some [("subset", .int c.subset), ("offset", .int c.offset)] := rfl
  have hsubset : [("subset", Json.int c.subset), ("offset", .int c.offset)].lookup "subset" =
      some (.int c.subset) := rfl
  have hoffset : [("subset", Json.int c.subset), ("offset", .int c.offset)].lookup "offset" =
      some (.int c.offset) := rfl
  rw [ofJson?, hfields, Option.bind_eq_bind, Option.bind_some, Json.required, hsubset,
    Option.bind_some, Json.word32?_int hs, Option.bind_eq_bind, Option.bind_some, Json.required,
    hoffset, Option.bind_some, Json.word64?_int ho]
  rfl

/-- A client sends back the place that it was told. -/
theorem decode_encode {c : Cursor} (hs : c.subset < 2 ^ 32) (ho : c.offset < 2 ^ 64) :
    decode c.encode = .ok c := by
  rw [decode, encode, Json.ofBytes?_text (printable hs ho), Option.bind_some,
    ofJson?_toJson hs ho]

end Cursor

namespace Cluster

/-- The key of a virtual scan holds the number of its part. -/
theorem subsetOf_bigEndian {scan : VirtualScan} {n : Nat} (hn : n < 2 ^ 32)
    (hk : scan.primaryKey = bigEndian 4 n) : subsetOf scan = .ok n := by
  simp only [subsetOf, hk, bigEndian, UInt8.toNat_ofNat']
  congr 1
  omega

/-! ## The parts of a scan -/

/-- The rows whose place itself has this residue. -/
def stride (ways subset : Nat) (rows : List Value) : List Value :=
  (rows.zipIdx.filter fun p => p.2 % ways == subset).map (·.1)

theorem stride_cons_zero (w : Nat) (x : Value) (rows : List Value) :
    stride (w + 1) 0 (x :: rows) = x :: stride (w + 1) w rows := by
  have hmod (n : Nat) : ((n + 1) % (w + 1) == 0) = (n % (w + 1) == w) := by
    rw [Bool.eq_iff_iff, beq_iff_eq, beq_iff_eq, Nat.succ_mod_succ_eq_zero_iff]
  simp [stride, List.zipIdx_cons, List.zipIdx_succ, List.filter_map, Function.comp_def, hmod]

theorem stride_cons_succ {w s : Nat} (hs : s < w) (x : Value) (rows : List Value) :
    stride (w + 1) (s + 1) (x :: rows) = stride (w + 1) s rows := by
  have hmod (n : Nat) : ((n + 1) % (w + 1) == s + 1) = (n % (w + 1) == s) := by
    have hlt : n % (w + 1) < w + 1 := Nat.mod_lt n w.succ_pos
    have hone : 1 % (w + 1) = 1 := Nat.mod_eq_of_lt (by omega)
    rw [Bool.eq_iff_iff, beq_iff_eq, beq_iff_eq, Nat.add_mod_eq_ite, hone]
    split <;> omega
  simp [stride, List.zipIdx_cons, List.zipIdx_succ, List.filter_map, Function.comp_def, hmod]

/-- A stride holds the rows that are a whole number of rounds behind its first one. -/
theorem getElem?_stride {w s : Nat} (hs : s < w) (rows : List Value) (k : Nat) :
    (stride w s rows)[k]? = rows[s + k * w]? := by
  obtain ⟨w, rfl⟩ := Nat.exists_eq_add_one_of_ne_zero (Nat.ne_zero_of_lt hs)
  induction rows generalizing s k with
  | nil => rfl
  | cons x rows ih =>
    cases s with
    | zero =>
      rw [stride_cons_zero]
      cases k with
      | zero => simp
      | succ k =>
        rw [List.getElem?_cons_succ, ih k w.lt_succ_self, Nat.zero_add, Nat.succ_mul,
          ← Nat.add_assoc, List.getElem?_cons_succ, Nat.add_comm]
    | succ s =>
      rw [stride_cons_succ (Nat.lt_of_succ_lt_succ hs), ih k (Nat.lt_of_succ_lt hs),
        Nat.add_right_comm, List.getElem?_cons_succ]

/-- Where places do not start over, or where this makes no difference to the residues, a part holds
the rows of its stride. -/
theorem everyNth_eq_stride {w : Nat} {rows : List Value} (h : w ∣ 2 ^ 32 ∨ rows.length ≤ 2 ^ 32)
    (s : Nat) : everyNth w s rows = stride w s rows := by
  refine congrArg (List.map Prod.fst) (List.filter_congr fun p hp => ?_)
  rcases h with hdvd | hlen
  · rw [Nat.mod_mod_of_dvd _ hdvd]
  · rw [Nat.mod_eq_of_lt ((List.snd_lt_of_mem_zipIdx hp).trans_le hlen)]

/-- A row behind the last place is in the first part. -/
theorem everyNth_concat {w : Nat} {rows : List Value} (hlen : rows.length = 2 ^ 32) (x : Value) :
    everyNth w 0 (rows ++ [x]) = stride w 0 rows ++ [x] := by
  have hfirst : ((2 ^ 32 % 2 ^ 32) % w == 0) = true := by rw [Nat.mod_self, Nat.zero_mod]; rfl
  rw [← everyNth_eq_stride (.inr hlen.le), everyNth, List.zipIdx_append, List.filter_append,
    List.map_append, Nat.zero_add, hlen, List.zipIdx_singleton, List.filter_singleton, hfirst]
  rfl

/-- What is told apart by a number below some bound is found under these numbers. -/
theorem flatMap_filter_perm {α : Type} (f : α → Nat) {w : Nat} {xs : List α}
    (h : ∀ x ∈ xs, f x < w) :
    ((List.range w).flatMap fun s => xs.filter fun x => f x == s).Perm xs := by
  induction w generalizing xs with
  | zero =>
    cases xs with
    | nil => exact .nil
    | cons x xs => exact absurd (h x (List.mem_cons_self ..)) (Nat.not_lt_zero _)
  | succ w ih =>
    have hlower : ((List.range w).flatMap fun s => xs.filter fun x => f x == s) =
        (List.range w).flatMap fun s => (xs.filter fun x => f x != w).filter fun x => f x == s := by
      refine List.flatMap_congr fun s hs => ?_
      rw [List.filter_filter]
      refine List.filter_congr fun x _ => ?_
      have hne : s ≠ w := (List.mem_range.1 hs).ne
      by_cases hx : f x = s
      · simp [hx, hne]
      · simp [hx]
    have hrest : ∀ x ∈ xs.filter fun x => f x != w, f x < w := by
      intro x hx
      obtain ⟨hmem, hne⟩ := List.mem_filter.1 hx
      exact lt_of_le_of_ne (Nat.lt_succ_iff.1 (h x hmem)) (bne_iff_ne.1 hne)
    rw [List.range_succ, List.flatMap_append, List.flatMap_singleton, hlower]
    refine ((ih hrest).append_right _).trans (List.perm_append_comm.trans ?_)
    exact List.filter_append_perm (fun x => f x == w) xs

/-- The parts hold every row once. -/
theorem flatMap_everyNth_perm {w : Nat} (hw : 0 < w) (rows : List Value) :
    ((List.range w).flatMap fun s => everyNth w s rows).Perm rows := by
  have hlt : ∀ p ∈ rows.zipIdx, p.2 % 2 ^ 32 % w < w := fun p _ => Nat.mod_lt _ hw
  have hrows := (flatMap_filter_perm (fun p : Value × Nat => p.2 % 2 ^ 32 % w) hlt).map Prod.fst
  rwa [List.map_flatMap, List.zipIdx_map_fst] at hrows

/-! ## Readers -/

/-- How a client reads a source: the limits of its requests and the virtual scans that they name. -/
structure Reader where
  target : Target
  limits : Nat → Nat
  scans : Nat → Option VirtualScan

namespace Reader

/-- The request with a number, made with the continuation that came before it. -/
def request (r : Reader) (n : Nat) (key : Option Bytes) : FetchRequest :=
  { target := r.target, limit := r.limits n, continuation := key, virtualScan := r.scans n }

/-- The answers from a request on, up to the first one without continuation. -/
inductive Receives (c : Cluster) (r : Reader) : Nat → Option Bytes → List Batch → Prop
  | last {n : Nat} {key : Option Bytes} {batch : Batch}
      (h : c.answer (r.request n key) = .ok batch) (hend : batch.continuation = none) :
      Receives c r n key [batch]
  | more {n : Nat} {key : Option Bytes} {batch : Batch} {next : Bytes} {batches : List Batch}
      (h : c.answer (r.request n key) = .ok batch) (hnext : batch.continuation = some next)
      (hrest : Receives c r (n + 1) (some next) batches) :
      Receives c r n key (batch :: batches)

variable {c : Cluster} {r : Reader} {n : Nat} {key : Option Bytes}

theorem Receives.unique {batches batches' : List Batch} (h : r.Receives c n key batches)
    (h' : r.Receives c n key batches') : batches = batches' := by
  induction h generalizing batches' with
  | last h hend =>
    cases h' with
    | last h' _ => cases h.symm.trans h'; rfl
    | more h' hnext _ =>
      cases h.symm.trans h'
      cases hend.symm.trans hnext
  | more h hnext _ ih =>
    cases h' with
    | last h' hend =>
      cases h.symm.trans h'
      cases hend.symm.trans hnext
    | more h' hnext' hrest =>
      cases h.symm.trans h'
      cases hnext.symm.trans hnext'
      rw [ih hrest]

/-- From a continuation on the answers come to an end, and this can be said of all of them. -/
def Ends (c : Cluster) (r : Reader) (key : Option Bytes) (P : List Batch → Prop) : Prop :=
  ∃ batches, (∀ others, r.Receives c 0 key others ↔ others = batches) ∧ P batches

theorem Receives.ends {P : List Batch → Prop} {batches : List Batch}
    (h : r.Receives c 0 key batches) (hp : P batches) : r.Ends c key P :=
  ⟨batches, fun _ => ⟨fun h' => h'.unique h, fun he => he ▸ h⟩, hp⟩

end Reader

/-! ## Pages -/

/-- The pages of a source with these rows. The first one announces these virtual scans and the
others none. -/
structure Pages (rows : List Value) (announced : List VirtualScan) (batches : List Batch) :
    Prop where
  rows : batches.flatMap (·.rows) = rows
  announced : batches.map (·.virtualScans) =
    announced :: List.replicate (batches.length - 1) []

theorem pages_singleton (batch : Batch) : Pages batch.rows batch.virtualScans [batch] :=
  ⟨List.flatMap_singleton .., rfl⟩

theorem Pages.cons {rows : List Value} {batches : List Batch} (h : Pages rows [] batches)
    (batch : Batch) : Pages (batch.rows ++ rows) batch.virtualScans (batch :: batches) := by
  refine ⟨by rw [List.flatMap_cons, h.rows], ?_⟩
  have hlen : batches.length = batches.length - 1 + 1 := by
    simpa using congrArg List.length h.announced
  rw [List.map_cons, h.announced, List.length_cons, Nat.add_sub_cancel, hlen,
    List.replicate_succ, Nat.add_sub_cancel]

/-- There is a continuation where the next page does not start behind the end. -/
theorem continuation_eq (subset next length : Nat) :
    (if min next length < length then some (Cursor.encode ⟨subset, min next length⟩) else none) =
      if next < length then some (Cursor.encode ⟨subset, next⟩) else none := by
  by_cases hmore : next < length
  · rw [Nat.min_eq_left hmore.le]
  · rw [Nat.min_eq_right (Nat.not_lt.1 hmore), if_neg (Nat.lt_irrefl length), if_neg hmore]

section
variable {rows : List Value} {offset limit : Nat}

theorem page_last (subset : Nat) (h : rows.length ≤ offset + limit) :
    (page rows ⟨subset, offset⟩ limit).rows = rows.drop offset ∧
      (page rows ⟨subset, offset⟩ limit).continuation = none := by
  have hlen : (rows.drop offset).length ≤ limit := by
    rw [List.length_drop]
    omega
  exact ⟨List.take_of_length_le hlen, (continuation_eq ..).trans (if_neg (Nat.not_lt.2 h))⟩

theorem page_more (subset : Nat) (h : offset + limit < rows.length) :
    (page rows ⟨subset, offset⟩ limit).rows ++ rows.drop (offset + limit) = rows.drop offset ∧
      (page rows ⟨subset, offset⟩ limit).continuation =
        some (Cursor.encode ⟨subset, offset + limit⟩) := by
  refine ⟨?_, (continuation_eq ..).trans (if_pos h)⟩
  rw [← List.drop_drop]
  exact List.take_append_drop limit (rows.drop offset)

end

variable {c : Cluster} {r : Reader} {rows : List Value} {subset : Nat}

/-- A reader that gets the next page of a source for every continuation, and no announcements,
gets all that is left of the source. -/
theorem receives_pages
    (hnext : ∀ n offset, offset < rows.length →
      c.answer (r.request n (some (Cursor.encode ⟨subset, offset⟩))) =
        .ok (page rows ⟨subset, offset⟩ (max (r.limits n) 1)))
    {n offset : Nat} {key : Option Bytes} {announced : List VirtualScan}
    (h : c.answer (r.request n key) =
      .ok { page rows ⟨subset, offset⟩ (max (r.limits n) 1) with virtualScans := announced }) :
    ∃ batches, r.Receives c n key batches ∧ Pages (rows.drop offset) announced batches := by
  -- Every page moves the offset on.
  induction hleft : rows.length - offset using Nat.strong_induction_on
    generalizing n offset key announced with
  | _ left ih =>
    have hpos : 1 ≤ max (r.limits n) 1 := le_max_right ..
    generalize hlimit : max (r.limits n) 1 = limit at h hpos
    by_cases hlast : rows.length ≤ offset + limit
    · obtain ⟨hrows, hend⟩ := page_last subset hlast
      refine ⟨_, .last h hend, ?_⟩
      rw [← hrows]
      exact pages_singleton { page rows ⟨subset, offset⟩ limit with virtualScans := announced }
    · obtain ⟨hrows, hmore⟩ := page_more subset (Nat.not_le.1 hlast)
      obtain ⟨batches, hreceives, hpages⟩ := ih (rows.length - (offset + limit)) (by omega)
        (hnext (n + 1) (offset + limit) (Nat.not_le.1 hlast)) rfl
      refine ⟨_, .more h hmore hreceives, ?_⟩
      rw [← hrows]
      exact hpages.cons { page rows ⟨subset, offset⟩ limit with virtualScans := announced }

/-- A target whose answers are the pages of a source can be read from the start and from any place
in the source. -/
theorem ends_pages (hlen : rows.length < 2 ^ 64)
    (h : ∀ request : FetchRequest, request.target = r.target → c.answer request =
      (Cursor.ofContinuation request.continuation).map (page rows · (max request.limit 1))) :
    r.Ends c none (Pages rows []) ∧ ∀ offset < rows.length,
      r.Ends c (some (Cursor.encode ⟨0, offset⟩)) (Pages (rows.drop offset) []) := by
  have hnext : ∀ n offset, offset < rows.length →
      c.answer (r.request n (some (Cursor.encode ⟨0, offset⟩))) =
        .ok (page rows ⟨0, offset⟩ (max (r.limits n) 1)) := by
    intro n offset ho
    rw [h _ rfl]
    simp only [Reader.request, Cursor.ofContinuation]
    rw [Cursor.decode_encode (Nat.two_pow_pos 32) (ho.trans hlen)]
    rfl
  refine ⟨?_, fun offset ho => ?_⟩
  · obtain ⟨batches, hreceives, hpages⟩ := receives_pages hnext (h (r.request 0 none) rfl)
    exact hreceives.ends hpages
  · obtain ⟨batches, hreceives, hpages⟩ := receives_pages hnext (hnext 0 offset ho)
    exact hreceives.ends hpages

end Cluster
end ShardQuery
