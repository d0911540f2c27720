import Mathlib.Data.List.Sort
import ShardQuery.Value.Order

/-!
The order of values, of sort keys and of rows is a total preorder: it can be read from either side,
and it is transitive.
-/

namespace ShardQuery

/-- Comparing by one thing and then by another is transitive if each is, as far as it decides. The
first comparison must be so for every arrangement of the three. -/
theorem isLE_then_trans {xy yz xz rxy ryz rxz : Ordering}
    (h1 : xy.isLE → yz.isLE → xz.isLE) (h2 : yz.isLE → xz.swap.isLE → xy.swap.isLE)
    (h3 : xz.swap.isLE → xy.isLE → yz.swap.isLE)
    (hr : xy = .eq → yz = .eq → rxy.isLE → ryz.isLE → rxz.isLE)
    (hxy : (xy.then rxy).isLE) (hyz : (yz.then ryz).isLE) : (xz.then rxz).isLE := by
  cases xy <;> cases yz <;> cases xz <;> simp_all [Ordering.then]

namespace Key

/-- The place of a key's kind among the kinds, with nothing in front if asked. -/
def kindPlace (nullsFirst : Bool) (a : Key) : Nat :=
  if nullsFirst && a.isNothing then 0 else a.kindRank + 1

/-- The order of keys of one kind. -/
def compareInKind (nullsFirst : Bool) : Key → Key → Ordering
  | .number a r, .number b s => (Ord.compare a b).then (Ord.compare r s)
  | .time s m, .time t n => (Ord.compare s t).then (Ord.compare m n)
  | .text a, .text b => Ord.compare a b
  | .boolean a, .boolean b => Ord.compare a b
  | .binary a, .binary b => Ord.compare (a.map UInt8.toNat) (b.map UInt8.toNat)
  | .array xs, .array ys => compareItems nullsFirst xs ys
  | .map xs, .map ys => compareFields nullsFirst xs ys
  | .nothing a, .nothing b => Ord.compare a b
  | _, _ => .eq

theorem compare_eq_then (nullsFirst : Bool) (a b : Key) :
    a.compare nullsFirst b =
      (Ord.compare (a.kindPlace nullsFirst) (b.kindPlace nullsFirst)).then
        (a.compareInKind nullsFirst b) := by
  cases nullsFirst <;> cases a <;> cases b <;>
    simp [compare, compareInKind, kindPlace, kindRank, isNothing, compareKinds] <;> rfl

variable (nullsFirst : Bool)

mutual

theorem compare_swap (a b : Key) : a.compare nullsFirst b = (b.compare nullsFirst a).swap := by
  rw [compare_eq_then, compare_eq_then, Ordering.swap_then, ← Std.OrientedCmp.eq_swap]
  congr 1
  cases a <;> cases b <;> first | rfl | simp only [compareInKind]
  case number.number a r b s =>
    rw [Ordering.swap_then, ← Std.OrientedCmp.eq_swap, ← Std.OrientedCmp.eq_swap]
  case time.time s m t n =>
    rw [Ordering.swap_then, ← Std.OrientedCmp.eq_swap, ← Std.OrientedCmp.eq_swap]
  case array.array xs ys => exact compareItems_swap xs ys
  case map.map xs ys => exact compareFields_swap xs ys
  all_goals exact Std.OrientedCmp.eq_swap

theorem compareItems_swap (xs ys : List Key) :
    compareItems nullsFirst xs ys = (compareItems nullsFirst ys xs).swap := by
  match xs, ys with
  | [], [] | [], _ :: _ | _ :: _, [] => rfl
  | x :: xs, y :: ys =>
    simp only [compareItems, Ordering.swap_then]
    rw [← compare_swap x y, ← compareItems_swap xs ys]

theorem compareFields_swap (xs ys : List (String × Key)) :
    compareFields nullsFirst xs ys = (compareFields nullsFirst ys xs).swap := by
  match xs, ys with
  | [], [] | [], _ :: _ | _ :: _, [] => rfl
  | (m, x) :: xs, (n, y) :: ys =>
    simp only [compareFields, Ordering.swap_then]
    rw [← compare_swap x y, ← compareFields_swap xs ys, ← Std.OrientedCmp.eq_swap]

end

/-- Comparing by two things in turn, each of them transitive. -/
theorem isLE_pair_trans {α β : Type} [Ord α] [Ord β] [Std.TransOrd α] [Std.TransOrd β]
    {a b c : α} {x y z : β} (h1 : ((Ord.compare a b).then (Ord.compare x y)).isLE)
    (h2 : ((Ord.compare b c).then (Ord.compare y z)).isLE) :
    ((Ord.compare a c).then (Ord.compare x z)).isLE := by
  refine isLE_then_trans Std.TransCmp.isLE_trans ?_ ?_ (fun _ _ => Std.TransCmp.isLE_trans) h1 h2
  · rw [← Std.OrientedCmp.eq_swap, ← Std.OrientedCmp.eq_swap]
    exact Std.TransCmp.isLE_trans
  · rw [← Std.OrientedCmp.eq_swap, ← Std.OrientedCmp.eq_swap]
    exact Std.TransCmp.isLE_trans

mutual

theorem compare_isLE_trans (a b c : Key) (hab : (a.compare nullsFirst b).isLE)
    (hbc : (b.compare nullsFirst c).isLE) : (a.compare nullsFirst c).isLE := by
  rw [compare_eq_then] at *
  refine isLE_then_trans Std.TransCmp.isLE_trans ?_ ?_ ?_ hab hbc
  · rw [← Std.OrientedCmp.eq_swap, ← Std.OrientedCmp.eq_swap]
    exact Std.TransCmp.isLE_trans
  · rw [← Std.OrientedCmp.eq_swap, ← Std.OrientedCmp.eq_swap]
    exact Std.TransCmp.isLE_trans
  · intro hk1 hk2 h1 h2
    have he1 := Std.LawfulEqCmp.eq_of_compare hk1
    have he2 := Std.LawfulEqCmp.eq_of_compare hk2
    clear hab hbc hk1 hk2
    -- keys at one place are of one kind
    cases a <;> cases b <;> first | (cases nullsFirst <;> cases he1; done) | skip
    all_goals cases c <;> first | (cases nullsFirst <;> cases he2; done) | skip
    case number.number.number a r b s c t => exact isLE_pair_trans h1 h2
    case time.time.time a r b s c t => exact isLE_pair_trans h1 h2
    case array.array.array xs ys zs => exact compareItems_isLE_trans xs ys zs h1 h2
    case map.map.map xs ys zs => exact compareFields_isLE_trans xs ys zs h1 h2
    all_goals
      simp only [compareInKind] at h1 h2 ⊢
      exact Std.TransCmp.isLE_trans h1 h2
termination_by sizeOf a + sizeOf b + sizeOf c

theorem compareItems_isLE_trans (xs ys zs : List Key) (hxy : (compareItems nullsFirst xs ys).isLE)
    (hyz : (compareItems nullsFirst ys zs).isLE) : (compareItems nullsFirst xs zs).isLE := by
  match xs, ys, zs with
  | [], _, [] | [], _, _ :: _ => rfl
  | _ :: _, [], _ => cases hxy
  | _ :: _, _ :: _, [] => cases hyz
  | x :: xs, y :: ys, z :: zs =>
    simp only [compareItems] at *
    refine isLE_then_trans (compare_isLE_trans x y z) ?_ ?_
      (fun _ _ => compareItems_isLE_trans xs ys zs) hxy hyz
    · rw [← compare_swap, ← compare_swap]
      exact compare_isLE_trans y z x
    · rw [← compare_swap, ← compare_swap]
      exact compare_isLE_trans z x y
termination_by sizeOf xs + sizeOf ys + sizeOf zs

theorem compareFields_isLE_trans (xs ys zs : List (String × Key))
    (hxy : (compareFields nullsFirst xs ys).isLE) (hyz : (compareFields nullsFirst ys zs).isLE) :
    (compareFields nullsFirst xs zs).isLE := by
  match xs, ys, zs with
  | [], _, [] | [], _, _ :: _ => rfl
  | _ :: _, [], _ => cases hxy
  | _ :: _, _ :: _, [] => cases hyz
  | (l, x) :: xs, (m, y) :: ys, (n, z) :: zs =>
    simp only [compareFields, Ordering.then_assoc] at *
    refine isLE_then_trans Std.TransCmp.isLE_trans ?_ ?_ (fun _ _ => ?_) hxy hyz
    · rw [← Std.OrientedCmp.eq_swap, ← Std.OrientedCmp.eq_swap]
      exact Std.TransCmp.isLE_trans
    · rw [← Std.OrientedCmp.eq_swap, ← Std.OrientedCmp.eq_swap]
      exact Std.TransCmp.isLE_trans
    · refine isLE_then_trans (compare_isLE_trans x y z) ?_ ?_
        (fun _ _ => compareFields_isLE_trans xs ys zs)
      · rw [← compare_swap, ← compare_swap]
        exact compare_isLE_trans y z x
      · rw [← compare_swap, ← compare_swap]
        exact compare_isLE_trans z x y
termination_by sizeOf xs + sizeOf ys + sizeOf zs

end

instance : Std.TransCmp (compare nullsFirst) where
  eq_swap := compare_swap nullsFirst _ _
  isLE_trans := compare_isLE_trans nullsFirst _ _ _

variable {nullsFirst}

mutual

/-- The order tells all keys apart. -/
theorem eq_of_compare (a b : Key) (h : a.compare nullsFirst b = .eq) : a = b := by
  rw [compare_eq_then, Ordering.then_eq_eq] at h
  obtain ⟨hp, h⟩ := h
  have hp := Nat.compare_eq_eq.1 hp
  cases a <;> cases b <;>
    first
    | (cases nullsFirst <;> simp [kindPlace, isNothing, kindRank] at hp; done)
    | (clear hp; simp only [compareInKind, Ordering.then_eq_eq, Nat.compare_eq_eq] at h)
  case number.number v m w n => exact congrArg₂ Key.number (Int.compare_eq_eq.1 h.1) h.2
  case time.time i m j n => exact congrArg₂ Key.time (Int.compare_eq_eq.1 h.1) h.2
  case text.text x y => exact congrArg Key.text (Std.LawfulEqOrd.eq_of_compare h)
  case boolean.boolean p q => exact congrArg Key.boolean (Std.LawfulEqOrd.eq_of_compare h)
  case binary.binary x y =>
    have hxy : x.map UInt8.toNat = y.map UInt8.toNat := Std.LawfulEqOrd.eq_of_compare h
    exact congrArg Key.binary (List.map_injective_iff.2 (fun _ _ => UInt8.toNat_inj.1) hxy)
  case array.array xs ys => exact congrArg Key.array (eq_of_compareItems xs ys h)
  case map.map xs ys => exact congrArg Key.map (eq_of_compareFields xs ys h)
  case nothing.nothing m n => exact congrArg Key.nothing h

theorem eq_of_compareItems (xs ys : List Key) (h : compareItems nullsFirst xs ys = .eq) :
    xs = ys := by
  match xs, ys with
  | [], [] => rfl
  | x :: xs, y :: ys =>
    rw [compareItems, Ordering.then_eq_eq] at h
    rw [eq_of_compare x y h.1, eq_of_compareItems xs ys h.2]

theorem eq_of_compareFields (xs ys : List (String × Key))
    (h : compareFields nullsFirst xs ys = .eq) : xs = ys := by
  match xs, ys with
  | [], [] => rfl
  | (m, x) :: xs, (n, y) :: ys =>
    rw [compareFields, Ordering.then_eq_eq, Ordering.then_eq_eq] at h
    have hmn : m = n := Std.LawfulEqOrd.eq_of_compare h.1.1
    rw [hmn, eq_of_compare x y h.1.2, eq_of_compareFields xs ys h.2]

end

theorem compare_eq_iff {a b : Key} : a.compare nullsFirst b = .eq ↔ a = b := by
  refine ⟨eq_of_compare a b, ?_⟩
  rintro rfl
  exact Std.ReflCmp.compare_self

end Key

instance (nullsFirst : Bool) : Std.TransCmp (Value.compare nullsFirst) where
  eq_swap := Key.compare_swap nullsFirst _ _
  isLE_trans := Key.compare_isLE_trans nullsFirst _ _ _

instance (spec : SortSpec) : Std.TransCmp spec.compare where
  eq_swap := by
    intro a b
    simp only [SortSpec.compare]
    split
    · exact congrArg Ordering.swap Std.OrientedCmp.eq_swap
    · exact Std.OrientedCmp.eq_swap
  isLE_trans := by
    intro a b c
    simp only [SortSpec.compare]
    split
    · rw [← Std.OrientedCmp.eq_swap, ← Std.OrientedCmp.eq_swap, ← Std.OrientedCmp.eq_swap]
      exact fun h1 h2 => Std.TransCmp.isLE_trans h2 h1
    · exact Std.TransCmp.isLE_trans

theorem compareRows_swap (specs : List SortSpec) (a b : Value) :
    compareRows specs a b = (compareRows specs b a).swap := by
  induction specs with
  | nil => rfl
  | cons spec rest ih =>
    simp only [compareRows, Ordering.swap_then]
    rw [← ih, ← Std.OrientedCmp.eq_swap]

theorem compareRows_isLE_trans (specs : List SortSpec) {a b c : Value}
    (hab : (compareRows specs a b).isLE) (hbc : (compareRows specs b c).isLE) :
    (compareRows specs a c).isLE := by
  induction specs with
  | nil => rfl
  | cons spec rest ih =>
    refine isLE_then_trans Std.TransCmp.isLE_trans ?_ ?_ (fun _ _ => ih) hab hbc
    · rw [← Std.OrientedCmp.eq_swap, ← Std.OrientedCmp.eq_swap]
      exact Std.TransCmp.isLE_trans
    · rw [← Std.OrientedCmp.eq_swap, ← Std.OrientedCmp.eq_swap]
      exact Std.TransCmp.isLE_trans

instance (specs : List SortSpec) : Std.TransCmp (compareRows specs) where
  eq_swap := compareRows_swap specs _ _
  isLE_trans := compareRows_isLE_trans specs

end ShardQuery
