/-!
Binary heaps: trees that are filled level by level from the left, with an element on top that no
other one comes before. Elements that compare equal leave in an order that depends on the places
they were moved to, so those moves are part of what a heap does. Nothing is ever lost or made up:
`push_perm` and `pop?_perm`.
-/

namespace ShardQuery

inductive Heap (α : Type) where
  | nil
  | node (top : α) (left right : Heap α)
  deriving Inhabited, Repr

namespace Heap
variable {α : Type} {h left right : Heap α} {x top : α}

def toList : Heap α → List α
  | nil => []
  | node top left right => top :: (left.toList ++ right.toList)

def size : Heap α → Nat
  | nil => 0
  | node _ left right => left.size + right.size + 1

def top? : Heap α → Option α
  | nil => none
  | node top _ _ => some top

/-- The way from the top to the place with the given number, counted from one, level by level. A
step to the right is `true`. -/
def path (n : Nat) : List Bool :=
  if n ≤ 1 then [] else path (n / 2) ++ [n % 2 == 1]

section
variable (cmp : α → α → Ordering)

/-- A heap whose left part has a new top: the two tops change places if they are out of order. -/
def liftLeft (top : α) (left right : Heap α) : Heap α :=
  match left with
  | nil => node top nil right
  | node x l r =>
    if cmp top x = .gt then node x (node top l r) right else node top (node x l r) right

/-- A heap whose right part has a new top: the two tops change places if they are out of order. -/
def liftRight (top : α) (left right : Heap α) : Heap α :=
  match right with
  | nil => node top left nil
  | node x l r =>
    if cmp top x = .gt then node x left (node top l r) else node top left (node x l r)

/-- Puts an element at the end of a way, from where it rises past all that come after it. -/
def insert (x : α) : List Bool → Heap α → Heap α
  | _, nil => node x nil nil
  | way, node top left right =>
    if way.headD false then liftRight cmp top left (insert x way.tail right)
    else liftLeft cmp top (insert x way.tail left) right

/-- Adds an element. -/
def push (x : α) (h : Heap α) : Heap α := h.insert cmp x (path (h.size + 1))

/-- Replaces the element on top. The new one first sinks to the bottom, always towards the part
whose top comes first, the right one if they are level, and then rises like one just added. -/
def replaceTop (x : α) : Heap α → Heap α
  | nil => nil
  | node _ left right =>
    match left.top?, right.top? with
    | none, none => node x left right
    | some a, none => liftLeft cmp a (replaceTop x left) right
    | none, some b => liftRight cmp b left (replaceTop x right)
    | some a, some b =>
      if cmp b a = .gt then liftLeft cmp a (replaceTop x left) right
      else liftRight cmp b left (replaceTop x right)

end

/-- Takes out the element at the end of a way. A way that leads nowhere is left for the other side,
so an element is found unless there is none. -/
def takeLast? : List Bool → Heap α → Option (α × Heap α)
  | _, nil => none
  | way, node top left right =>
    let fromLeft := (takeLast? way.tail left).map fun (x, left) => (x, node top left right)
    let fromRight := (takeLast? way.tail right).map fun (x, right) => (x, node top left right)
    let found := if way.headD false then fromRight.or fromLeft else fromLeft.or fromRight
    some (found.getD (top, nil))

/-- The element on top and the heap without it, whose last element takes the free place. -/
def pop? (cmp : α → α → Ordering) (h : Heap α) : Option (α × Heap α) :=
  match h.takeLast? (path h.size) with
  | none => none
  | some (x, rest) =>
    match rest.top? with
    | none => some (x, nil)
    | some top => some (top, rest.replaceTop cmp x)

/-- A heap of the given elements, added one after the other. -/
def ofList (cmp : α → α → Ordering) (xs : List α) : Heap α :=
  xs.foldl (fun h x => h.push cmp x) nil

/-! ## Nothing is lost -/

variable {cmp : α → α → Ordering} {way : List Bool}

theorem length_toList (h : Heap α) : h.toList.length = h.size := by
  induction h with
  | nil => rfl
  | node top left right ihl ihr => simp [toList, size, ihl, ihr]

theorem top?_eq_head? (h : Heap α) : h.top? = h.toList.head? := by
  cases h <;> rfl

theorem top?_eq_none : h.top? = none ↔ h = nil := by
  cases h <;> simp [top?]

theorem liftLeft_perm (top : α) (left right : Heap α) :
    (liftLeft cmp top left right).toList.Perm (top :: (left.toList ++ right.toList)) := by
  unfold liftLeft
  split
  · exact .refl _
  · split
    · simpa [toList] using .swap ..
    · exact .refl _

theorem liftRight_perm (top : α) (left right : Heap α) :
    (liftRight cmp top left right).toList.Perm (top :: (left.toList ++ right.toList)) := by
  unfold liftRight
  split
  · exact .refl _
  · rename_i x l r
    split
    · have h1 : (left.toList ++ (top :: (l.toList ++ r.toList))).Perm
          (top :: (left.toList ++ (l.toList ++ r.toList))) := List.perm_middle
      have h2 : (left.toList ++ (x :: (l.toList ++ r.toList))).Perm
          (x :: (left.toList ++ (l.toList ++ r.toList))) := List.perm_middle
      exact (h1.cons x).trans ((List.Perm.swap top x _).trans (h2.symm.cons top))
    · exact .refl _

theorem insert_perm (x : α) (way : List Bool) (h : Heap α) :
    (h.insert cmp x way).toList.Perm (x :: h.toList) := by
  induction h generalizing way with
  | nil => simp [insert, toList]
  | node top left right ihl ihr =>
    simp only [insert]
    split
    · refine (liftRight_perm ..).trans ?_
      have := (ihr way.tail).append_left left.toList
      exact ((this.trans List.perm_middle).cons top).trans (.swap ..)
    · refine (liftLeft_perm ..).trans ?_
      exact (((ihl way.tail).append_right right.toList).cons top).trans (.swap ..)

theorem push_perm (x : α) (h : Heap α) : (h.push cmp x).toList.Perm (x :: h.toList) :=
  insert_perm ..

theorem replaceTop_perm (x top : α) (left right : Heap α) :
    (top :: ((node top left right).replaceTop cmp x).toList).Perm
      (x :: (node top left right).toList) := by
  induction h : left.size + right.size using Nat.strongRecOn generalizing top left right with
  | ind n ih =>
    have below (part : Heap α) (a : α) (hs : part.size ≤ n) (ha : part.top? = some a) :
        (a :: (part.replaceTop cmp x).toList).Perm (x :: part.toList) := by
      cases part with
      | nil => simp [top?] at ha
      | node b l r =>
        obtain rfl : b = a := by simpa [top?] using ha
        exact ih _ (by simp only [size] at hs; omega) b l r rfl
    have hl (a : α) := below left a (by omega)
    have hr (b : α) := below right b (by omega)
    have viaLeft {a : α} (ha : left.top? = some a) :
        (liftLeft cmp a (left.replaceTop cmp x) right).toList.Perm
          (x :: (left.toList ++ right.toList)) :=
      (liftLeft_perm ..).trans ((hl a ha).append_right right.toList)
    have viaRight {b : α} (hb : right.top? = some b) :
        (liftRight cmp b left (right.replaceTop cmp x)).toList.Perm
          (x :: (left.toList ++ right.toList)) :=
      (liftRight_perm ..).trans <| List.perm_middle.symm.trans <|
        ((hr b hb).append_left left.toList).trans List.perm_middle
    refine List.Perm.trans (.cons top ?_) (.swap ..)
    simp only [replaceTop]
    split
    · exact .refl _
    · exact viaLeft ‹_›
    · exact viaRight ‹_›
    · split
      · exact viaLeft ‹_›
      · exact viaRight ‹_›

theorem takeLast?_perm {rest : Heap α} (hx : h.takeLast? way = some (x, rest)) :
    h.toList.Perm (x :: rest.toList) := by
  induction h generalizing way x rest with
  | nil => simp [takeLast?] at hx
  | node top left right ihl ihr =>
    have viaLeft {way : List Bool} {y : α} {l : Heap α} (hy : left.takeLast? way = some (y, l)) :
        (node top left right).toList.Perm (y :: (node top l right).toList) :=
      (((ihl hy).append_right right.toList).cons top).trans (.swap ..)
    have viaRight {way : List Bool} {y : α} {r : Heap α} (hy : right.takeLast? way = some (y, r)) :
        (node top left right).toList.Perm (y :: (node top left r).toList) :=
      ((((ihr hy).append_left left.toList).trans List.perm_middle).cons top).trans (.swap ..)
    have alone (hl : left.takeLast? way.tail = none) (hr : right.takeLast? way.tail = none) :
        (node top left right).toList = [top] := by
      cases left <;> cases right <;> simp_all [takeLast?, toList]
    simp only [takeLast?, Option.some.injEq] at hx
    cases hl : left.takeLast? way.tail <;> cases hr : right.takeLast? way.tail <;>
      simp only [hl, hr, Option.map_none, Option.map_some] at hx <;> split at hx <;>
      simp only [Option.none_or, Option.some_or, Option.or_none, Option.getD_none,
        Option.getD_some, Prod.mk.injEq] at hx <;>
      obtain ⟨rfl, rfl⟩ := hx
    all_goals first
      | exact viaLeft hl
      | exact viaRight hr
      | (rw [alone hl hr]; exact .refl _)

/-- Taking out the last element leaves the one on top, unless it was the only one. -/
theorem takeLast?_top {rest : Heap α} (hx : h.takeLast? way = some (x, rest)) :
    h.top? = rest.top?.or (some x) := by
  cases h with
  | nil => simp [takeLast?] at hx
  | node top left right =>
    simp only [takeLast?, Option.some.injEq] at hx
    cases hl : left.takeLast? way.tail <;> cases hr : right.takeLast? way.tail <;>
      simp only [hl, hr, Option.map_none, Option.map_some] at hx <;> split at hx <;>
      simp only [Option.none_or, Option.some_or, Option.or_none, Option.getD_none,
        Option.getD_some, Prod.mk.injEq] at hx <;>
      obtain ⟨rfl, rfl⟩ := hx <;> rfl

theorem takeLast?_eq_none : h.takeLast? way = none ↔ h = nil := by
  cases h <;> simp [takeLast?]

theorem pop?_perm {rest : Heap α} (hx : h.pop? cmp = some (x, rest)) :
    h.toList.Perm (x :: rest.toList) := by
  unfold pop? at hx
  split at hx
  · simp at hx
  · rename_i last taken ht
    have hp := takeLast?_perm ht
    split at hx
    · rename_i he
      obtain ⟨rfl, rfl⟩ : last = x ∧ nil = rest := by simpa using hx
      rwa [top?_eq_none.1 he] at hp
    · rename_i top he
      obtain ⟨rfl, rfl⟩ : top = x ∧ taken.replaceTop cmp last = rest := by simpa using hx
      cases taken with
      | nil => simp [top?] at he
      | node a l r =>
        obtain rfl : a = top := by simpa [top?] using he
        exact hp.trans (replaceTop_perm last a l r).symm

theorem pop?_eq_none : h.pop? cmp = none ↔ h = nil := by
  unfold pop?
  split
  · simp_all [takeLast?_eq_none]
  · rename_i ht
    have : h ≠ nil := fun hn => by simp [hn, takeLast?] at ht
    split <;> simp [this]

/-- What is popped is what was on top. -/
theorem pop?_top {rest : Heap α} (hx : h.pop? cmp = some (x, rest)) : h.top? = some x := by
  unfold pop? at hx
  split at hx
  · simp at hx
  · rename_i ht
    have := takeLast?_top ht
    split at hx <;> simp_all

theorem size_of_pop? {rest : Heap α} (hx : h.pop? cmp = some (x, rest)) :
    h.size = rest.size + 1 := by
  simpa [length_toList] using (pop?_perm hx).length_eq

/-- All elements in the order in which they leave. -/
def popAll (cmp : α → α → Ordering) (h : Heap α) : List α :=
  match _ : h.pop? cmp with
  | none => []
  | some (x, rest) => x :: popAll cmp rest
termination_by h.size
decreasing_by
  rename_i hx
  simp [size_of_pop? hx]

end Heap
end ShardQuery
