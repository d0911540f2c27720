import ShardQuery.Proofs.Session.Drain

/-!
Servers that hand out sources: each source whole and in order, but cut into pages as they like and
in whatever order they are asked. With its first page a source may announce virtual scans, which are
sources as well.
-/

namespace ShardQuery

/-- The rows of a source and the virtual scans that it announces. -/
inductive Source where
  | mk (rows : List Value) (announced : List (VirtualScan × Source))

namespace Source

def rows : Source → List Value
  | mk rows _ => rows

def announced : Source → List (VirtualScan × Source)
  | mk _ announced => announced

/-- The sources that a source announces. -/
def opened (s : Source) : List Source := s.announced.map Prod.snd

theorem sum_opened_lt (s : Source) : (s.opened.map sizeOf).sum < sizeOf s := by
  obtain ⟨rows, announced⟩ := s
  have hsum : ∀ l : List (VirtualScan × Source), ((l.map Prod.snd).map sizeOf).sum < sizeOf l := by
    intro l
    induction l with
    | nil => simp
    | cons a rest ih =>
      obtain ⟨scan, source⟩ := a
      simp only [List.map_cons, List.sum_cons, List.cons.sizeOf_spec, Prod.mk.sizeOf_spec]
      omega
  have := hsum announced
  simp only [opened, Source.announced, mk.sizeOf_spec]
  omega

/-- Sources in the order of their ids, with the ones that they announce: an id is given to a virtual
scan when it is announced, and the source with the lowest id announces first. -/
def inOrder : List Source → List Source
  | [] => []
  | s :: rest => s :: inOrder (rest ++ s.opened)
termination_by sources => (sources.map sizeOf).sum
decreasing_by
  have := s.sum_opened_lt
  simp only [List.map_append, List.sum_append, List.map_cons, List.sum_cons]
  omega

theorem inOrder_append (sources rest : List Source) :
    inOrder (sources ++ rest) = sources ++ inOrder (rest ++ sources.flatMap opened) := by
  induction sources generalizing rest with
  | nil => simp
  | cons s sources ih =>
    rw [List.cons_append, inOrder, List.append_assoc, ih]
    simp [List.append_assoc]

end Source

/-- What the servers still hold of a source, and where they are with it. -/
structure Supply where
  target : Target
  /-- What the last page said to send with the next request. -/
  continuation : Option Bytes := none
  virtualScan : Option VirtualScan := none
  rows : List Value
  /-- What the next page announces. -/
  announced : List (VirtualScan × Source) := []

namespace Supply

/-- A shard before its first page. -/
def ofShard (id : Int) (s : Source) : Supply :=
  { target := .shard id, rows := s.rows, announced := s.announced }

/-- A virtual scan before its first page. -/
def ofScan (a : VirtualScan × Source) : Supply :=
  { target := .shard a.1.shard
    virtualScan := some a.1
    rows := a.2.rows
    announced := a.2.announced }

def request (s : Supply) (limit : Nat) : FetchRequest :=
  { target := s.target, limit, continuation := s.continuation, virtualScan := s.virtualScan }

/-- A batch is the next page of a source. It may be empty, and a page that has a continuation may
turn out to be the last one with rows. -/
structure Page (s : Supply) (batch : Batch) : Prop where
  rows : batch.rows <+: s.rows
  last : batch.continuation = none → batch.rows = s.rows
  announced : batch.virtualScans = s.announced.map Prod.fst

/-- What is left of a source after a page. -/
def rest (s : Supply) (batch : Batch) : List Supply :=
  batch.continuation.toList.map fun key =>
    { target := s.target, continuation := some key, rows := s.rows.drop batch.rows.length }

end Supply

/-- The servers have a number of pages to give before all that is listed is handed out. Whichever
source they are asked for next, with a limit that may be used, they answer with its next page if
they answer at all. What they have seen so far may make a difference to the pages they cut. -/
def Serving (servers : Servers) (limits : Nat → Prop) :
    Nat → List FetchRequest → List Supply → Prop
  | 0, _, supplies => supplies = []
  | pages + 1, log, supplies =>
    ∀ (supply : Supply) (others : List Supply) (limit : Nat) (batch : Batch),
      supplies.Perm (supply :: others) → limits limit →
      servers log (supply.request limit) = .ok batch →
      supply.Page batch ∧ Serving servers limits pages (supply.request limit :: log)
        (supply.rest batch ++ others ++ supply.announced.map .ofScan)

theorem Serving.perm {servers : Servers} {limits : Nat → Prop} {pages : Nat}
    {log : List FetchRequest} {supplies supplies' : List Supply}
    (h : Serving servers limits pages log supplies) (hp : supplies.Perm supplies') :
    Serving servers limits pages log supplies' := by
  cases pages with
  | zero =>
    rw [Serving] at h
    subst h
    exact hp.nil_eq.symm
  | succ n => exact fun supply others limit batch hs => h supply others limit batch (hp.trans hs)

open Supply in
/-- Servers that answer for each source they know with its next page, whatever they have seen,
have as many pages to give as the sources weigh. -/
theorem Serving.of_weight {servers : Servers} {limits : Nat → Prop} (known : Supply → Prop)
    (weight : Supply → Nat)
    (hpage : ∀ s limit log batch, known s → limits limit →
      servers log (s.request limit) = .ok batch → s.Page batch ∧
        (∀ t ∈ s.rest batch ++ s.announced.map ofScan, known t) ∧
        ((s.rest batch ++ s.announced.map ofScan).map weight).sum < weight s)
    (hpos : ∀ s, known s → 0 < weight s) {pages : Nat} (log : List FetchRequest)
    {supplies : List Supply} (hknown : ∀ s ∈ supplies, known s)
    (hsum : (supplies.map weight).sum ≤ pages) : Serving servers limits pages log supplies := by
  induction pages generalizing log supplies with
  | zero =>
    cases supplies with
    | nil => rfl
    | cons s rest =>
      have := hpos s (hknown s (List.mem_cons_self ..))
      rw [List.map_cons, List.sum_cons] at hsum
      omega
  | succ n ih =>
    intro s others limit batch hp hl hb
    have hs := hknown s (hp.symm.subset (List.mem_cons_self ..))
    obtain ⟨hbatch, hrest, hless⟩ := hpage s limit log batch hs hl hb
    refine ⟨hbatch, ih _ (fun t ht => ?_) ?_⟩
    · rcases List.mem_append.1 ht with ht | ht
      · rcases List.mem_append.1 ht with ht | ht
        · exact hrest t (List.mem_append_left _ ht)
        · exact hknown t (hp.symm.subset (List.mem_cons_of_mem _ ht))
      · exact hrest t (List.mem_append_right _ ht)
    · have hperm := (hp.map weight).sum_nat
      simp only [List.map_cons, List.sum_cons, List.map_append, List.sum_append] at hperm hless ⊢
      omega

end ShardQuery
