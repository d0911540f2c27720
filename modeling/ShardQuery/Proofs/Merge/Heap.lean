import ShardQuery.Merge.Heap

/-!
The order of a heap: no element comes before one that is above it. Every operation keeps it, so what
is popped comes before nothing that stays.
-/

namespace ShardQuery.Heap
variable {α : Type} {cmp : α → α → Ordering} {h left right : Heap α} {x top : α} {way : List Bool}

def Ordered (cmp : α → α → Ordering) : Heap α → Prop
  | nil => True
  | node top left right =>
    (∀ y ∈ left.toList ++ right.toList, (cmp top y).isLE) ∧ left.Ordered cmp ∧ right.Ordered cmp

theorem isLE_of_not_gt {a b : α} (h : ¬ cmp a b = .gt) : (cmp a b).isLE := by
  revert h
  cases cmp a b <;> simp

/-- A part with one new element, of which only that one may come before the element above. -/
def Holds (cmp : α → α → Ordering) (top x : α) (part : Heap α) : Prop :=
  part.Ordered cmp ∧ ∃ rest, part.toList.Perm (x :: rest) ∧ ∀ y ∈ rest, (cmp top y).isLE

/-- A top that is out of order is the new element, and nothing below it is. -/
theorem Holds.below {a : α} {l r : Heap α} (hp : Holds cmp top x (node a l r))
    (ha : cmp top a = .gt) : ∀ y ∈ l.toList ++ r.toList, (cmp top y).isLE := by
  obtain ⟨-, rest, hperm, hrest⟩ := hp
  have hx : a = x := by
    rcases List.mem_cons.1 (hperm.subset (List.mem_cons_self ..)) with rfl | hm
    · rfl
    · have := hrest a hm
      rw [ha] at this
      cases this
  subst hx
  intro y hy
  exact hrest y (hperm.cons_inv.subset hy)

/-- A part whose top moved up and was replaced. -/
theorem holds_replaceTop {a : α} (hp : h.Ordered cmp) (ha : h.top? = some a)
    (ho : (h.replaceTop cmp x).Ordered cmp) : Holds cmp a x (h.replaceTop cmp x) := by
  cases h with
  | nil => cases ha
  | node b l r =>
    obtain rfl : b = a := by simpa [top?] using ha
    exact ⟨ho, _, ((replaceTop_perm x b l r).trans (.swap ..)).cons_inv, hp.1⟩

theorem takeLast?_ordered {rest : Heap α} (hh : h.Ordered cmp)
    (hx : h.takeLast? way = some (x, rest)) : rest.Ordered cmp := by
  induction h generalizing way x rest with
  | nil => simp [takeLast?] at hx
  | node top left right ihl ihr =>
    obtain ⟨ht, hl, hr⟩ := hh
    have viaLeft {way : List Bool} {y : α} {l : Heap α} (hy : left.takeLast? way = some (y, l)) :
        (node top l right).Ordered cmp := by
      have hs : l.toList ⊆ left.toList := by
        intro z hz
        exact (takeLast?_perm hy).symm.subset (List.mem_cons_of_mem _ hz)
      refine ⟨fun z hz => ht z ?_, ihl hl hy, hr⟩
      exact List.mem_append.2 ((List.mem_append.1 hz).imp_left (@hs z))
    have viaRight {way : List Bool} {y : α} {r : Heap α} (hy : right.takeLast? way = some (y, r)) :
        (node top left r).Ordered cmp := by
      have hs : r.toList ⊆ right.toList := by
        intro z hz
        exact (takeLast?_perm hy).symm.subset (List.mem_cons_of_mem _ hz)
      refine ⟨fun z hz => ht z ?_, hl, ihr hr hy⟩
      exact List.mem_append.2 ((List.mem_append.1 hz).imp_right (@hs z))
    simp only [takeLast?, Option.some.injEq] at hx
    cases hlt : left.takeLast? way.tail <;> cases hrt : right.takeLast? way.tail <;>
      simp only [hlt, hrt, Option.map_none, Option.map_some] at hx <;> split at hx <;>
      simp only [Option.none_or, Option.some_or, Option.or_none, Option.getD_none,
        Option.getD_some, Prod.mk.injEq] at hx <;>
      obtain ⟨rfl, rfl⟩ := hx
    all_goals first
      | exact viaLeft hlt
      | exact viaRight hrt
      | exact trivial

theorem foldl_push_perm (xs : List α) (h : Heap α) :
    (xs.foldl (fun h x => h.push cmp x) h).toList.Perm (xs ++ h.toList) := by
  induction xs generalizing h with
  | nil => exact .refl _
  | cons x xs ih =>
    exact (ih (h.push cmp x)).trans
      (((push_perm x h).append_left xs).trans List.perm_middle)

variable [Std.TransCmp cmp]

theorem isLE_of_gt {a b : α} (h : cmp a b = .gt) : (cmp b a).isLE := by
  have hs : cmp b a = (cmp a b).swap := Std.OrientedCmp.eq_swap
  rw [hs, h]
  rfl

theorem Ordered.top_isLE {a : α} (hh : h.Ordered cmp) (ha : h.top? = some a) :
    ∀ y ∈ h.toList, (cmp a y).isLE := by
  cases h with
  | nil => cases ha
  | node top left right =>
    obtain rfl : top = a := by simpa [top?] using ha
    intro y hy
    rcases List.mem_cons.1 hy with rfl | hy
    · exact Std.ReflCmp.isLE_rfl
    · exact hh.1 y hy

theorem Holds.above {a : α} {l r : Heap α} (hp : Holds cmp top x (node a l r))
    (ha : ¬ cmp top a = .gt) : ∀ y ∈ (node a l r).toList, (cmp top y).isLE := by
  intro y hy
  exact Std.TransCmp.isLE_trans (isLE_of_not_gt ha) (hp.1.top_isLE rfl y hy)

theorem liftLeft_ordered (hl : Holds cmp top x left) (hr : right.Ordered cmp)
    (ht : ∀ y ∈ right.toList, (cmp top y).isLE) : (liftLeft cmp top left right).Ordered cmp := by
  unfold liftLeft
  split
  · exact ⟨ht, trivial, hr⟩
  · rename_i a l r
    split
    · rename_i ha
      have hle := isLE_of_gt ha
      refine ⟨fun y hy => ?_, ⟨hl.below ha, hl.1.2⟩, hr⟩
      rcases List.mem_append.1 hy with hy | hy
      · rcases List.mem_cons.1 hy with rfl | hy
        · exact hle
        · exact hl.1.1 y hy
      · exact Std.TransCmp.isLE_trans hle (ht y hy)
    · rename_i ha
      refine ⟨fun y hy => ?_, hl.1, hr⟩
      rcases List.mem_append.1 hy with hy | hy
      · exact hl.above ha y hy
      · exact ht y hy

theorem liftRight_ordered (hr : Holds cmp top x right) (hl : left.Ordered cmp)
    (ht : ∀ y ∈ left.toList, (cmp top y).isLE) : (liftRight cmp top left right).Ordered cmp := by
  unfold liftRight
  split
  · exact ⟨by simpa [toList] using ht, hl, trivial⟩
  · rename_i a l r
    split
    · rename_i ha
      have hle := isLE_of_gt ha
      refine ⟨fun y hy => ?_, hl, ⟨hr.below ha, hr.1.2⟩⟩
      rcases List.mem_append.1 hy with hy | hy
      · exact Std.TransCmp.isLE_trans hle (ht y hy)
      · rcases List.mem_cons.1 hy with rfl | hy
        · exact hle
        · exact hr.1.1 y hy
    · rename_i ha
      refine ⟨fun y hy => ?_, hl, hr.1⟩
      rcases List.mem_append.1 hy with hy | hy
      · exact ht y hy
      · exact hr.above ha y hy

theorem insert_ordered (x : α) (way : List Bool) (hh : h.Ordered cmp) :
    (h.insert cmp x way).Ordered cmp := by
  induction h generalizing way with
  | nil => exact ⟨by simp [toList], trivial, trivial⟩
  | node top left right ihl ihr =>
    obtain ⟨ht, hl, hr⟩ := hh
    have hleft : ∀ y ∈ left.toList, (cmp top y).isLE := by
      intro y hy
      exact ht y (List.mem_append_left _ hy)
    have hright : ∀ y ∈ right.toList, (cmp top y).isLE := by
      intro y hy
      exact ht y (List.mem_append_right _ hy)
    simp only [insert]
    split
    · exact liftRight_ordered ⟨ihr way.tail hr, _, insert_perm .., hright⟩ hl hleft
    · exact liftLeft_ordered ⟨ihl way.tail hl, _, insert_perm .., hleft⟩ hr hright

theorem push_ordered (x : α) (hh : h.Ordered cmp) : (h.push cmp x).Ordered cmp :=
  insert_ordered x _ hh

theorem foldl_push_ordered (xs : List α) (hh : h.Ordered cmp) :
    (xs.foldl (fun h x => h.push cmp x) h).Ordered cmp := by
  induction xs generalizing h with
  | nil => exact hh
  | cons x xs ih => exact ih (push_ordered x hh)

theorem ofList_spec (cmp : α → α → Ordering) [Std.TransCmp cmp] (xs : List α) :
    (ofList cmp xs).Ordered cmp ∧ (ofList cmp xs).toList.Perm xs := by
  have hp : (ofList cmp xs).toList.Perm (xs ++ nil.toList) := foldl_push_perm xs nil
  rw [toList, List.append_nil] at hp
  exact ⟨foldl_push_ordered xs trivial, hp⟩

theorem replaceTop_ordered (x : α) (hh : h.Ordered cmp) : (h.replaceTop cmp x).Ordered cmp := by
  induction hn : h.size using Nat.strongRecOn generalizing h with
  | ind n ih =>
    cases h with
    | nil => trivial
    | node top left right =>
      obtain ⟨-, hl, hr⟩ := hh
      have hln := ih _ (by simp only [size] at hn; omega) hl rfl
      have hrn := ih _ (by simp only [size] at hn; omega) hr rfl
      simp only [replaceTop]
      split
      · rename_i hleft hright
        rw [top?_eq_none.1 hleft, top?_eq_none.1 hright]
        exact ⟨by simp [toList], trivial, trivial⟩
      · rename_i hleft hright
        refine liftLeft_ordered (holds_replaceTop hl hleft hln) hr ?_
        simp [top?_eq_none.1 hright, toList]
      · rename_i hleft hright
        refine liftRight_ordered (holds_replaceTop hr hright hrn) hl ?_
        simp [top?_eq_none.1 hleft, toList]
      · rename_i hleft hright
        split
        · rename_i hba
          exact liftLeft_ordered (holds_replaceTop hl hleft hln) hr fun y hy =>
            Std.TransCmp.isLE_trans (isLE_of_gt hba) (hr.top_isLE hright y hy)
        · rename_i hba
          exact liftRight_ordered (holds_replaceTop hr hright hrn) hl fun y hy =>
            Std.TransCmp.isLE_trans (isLE_of_not_gt hba) (hl.top_isLE hleft y hy)

theorem pop?_ordered {rest : Heap α} (hh : h.Ordered cmp) (hx : h.pop? cmp = some (x, rest)) :
    rest.Ordered cmp := by
  unfold pop? at hx
  split at hx
  · cases hx
  · rename_i last taken ht
    have ho := takeLast?_ordered hh ht
    split at hx
    · cases hx
      trivial
    · cases hx
      exact replaceTop_ordered last ho

/-- What is popped comes before nothing that stays. -/
theorem pop?_isLE {rest : Heap α} (hh : h.Ordered cmp) (hx : h.pop? cmp = some (x, rest)) :
    ∀ y ∈ h.toList, (cmp x y).isLE :=
  hh.top_isLE (pop?_top hx)

end ShardQuery.Heap
