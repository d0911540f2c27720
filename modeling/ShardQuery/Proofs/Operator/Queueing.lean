import ShardQuery.Operator.Grouping
import ShardQuery.Proofs.Value.Tuple

/-!
The groups of a group step and the queue of the keys whose row is still to come. They are put away
apart from each other, but whatever is done with them, a key that waits finds its group.
-/

namespace ShardQuery
namespace Grouping

/-- No two groups are of one key, and the keys that wait are those of the last groups. Where tuples
are emitted as they come, none waits. -/
structure Queued (g : Grouping) : Prop where
  distinct : (g.groups.map (·.key)).Pairwise fun a b => sameGroup a b = false
  order : g.order <:+ g.groups.map (·.key)
  streaming : g.streams = true → g.order = []

variable {g p : Grouping} {key : List Value} {rest : List (List Value)} {es : List GroupEntry}
  {e : GroupEntry} {c d : Control}

/-! ## Looking up a key -/

/-- No two groups are one, so the first that is found is the one. -/
theorem find?_of_mem (hd : (es.map (·.key)).Pairwise fun a b => sameGroup a b = false)
    (he : e ∈ es) (hs : sameGroup e.key key = true) :
    (es.find? fun e => sameGroup e.key key) = some e := by
  induction es with
  | nil => cases he
  | cons x rest ih =>
    obtain ⟨hx, hrest⟩ := List.pairwise_cons.1 hd
    rcases List.mem_cons.1 he with rfl | he
    · exact List.find?_cons_of_pos hs
    · have hne : ¬sameGroup x.key key = true := fun hxs => by
        have hxe := hx e.key (List.mem_map_of_mem he)
        rw [sameGroup_trans hxs (sameGroup_symm hs)] at hxe
        cases hxe
      exact (List.find?_cons_of_neg (p := fun e : GroupEntry => sameGroup e.key key) hne).trans
        (ih hrest he)

/-- What an update leaves as it is in one entry it leaves in all. -/
theorem map_update {β : Type} {get : GroupEntry → β} {f : GroupEntry → GroupEntry}
    (hf : ∀ e, get (f e) = get e) : (update key f es).map get = es.map get := by
  simp only [update, List.map_map]
  refine List.map_congr_left fun e _ => ?_
  simp only [Function.comp_apply]
  split
  · exact hf e
  · rfl

/-- The row of a group. -/
def rowOf (g : Grouping) (e : GroupEntry) : Value :=
  g.makeRow e.key (e.accumulators.map Accumulator.result)

namespace Queued

/-- A group is found by its key. -/
theorem find?_key (h : g.Queued) (he : e ∈ g.groups) : g.find? e.key = some e :=
  find?_of_mem h.distinct he (sameGroup_refl e.key)

/-- Every key that waits finds its group. -/
theorem find? (h : g.Queued) (hk : key ∈ g.order) :
    ∃ e, g.find? key = some e ∧ e.key = key := by
  obtain ⟨e, he, rfl⟩ := List.mem_map.1 (h.order.mem hk)
  exact ⟨e, h.find?_key he, rfl⟩

/-- The groups of the keys that wait stand behind all others. -/
theorem exists_waiting (h : g.Queued) :
    ∃ before waiting, g.groups = before ++ waiting ∧ g.order = waiting.map (·.key) := by
  obtain ⟨first, hfirst⟩ := h.order
  obtain ⟨before, waiting, hg, -, hw⟩ := List.map_eq_append_iff.1 hfirst.symm
  exact ⟨before, waiting, hg, hw.symm⟩

/-- Only the group itself is of its key. -/
theorem eraseP_key (h : g.Queued) {before after : List GroupEntry}
    (hg : g.groups = before ++ e :: after) :
    (g.groups.eraseP fun x => sameGroup x.key e.key) = before ++ after := by
  have hbefore : ∀ x ∈ before, ¬sameGroup x.key e.key = true := by
    intro x hx hs
    have hd := h.distinct
    rw [hg, List.map_append, List.pairwise_append] at hd
    have hne := hd.2.2 x.key (List.mem_map_of_mem hx) e.key (by simp)
    cases hs.symm.trans hne
  rw [hg, List.eraseP_append_right _ hbefore]
  exact congrArg (before ++ ·) (List.eraseP_cons_of_pos (sameGroup_refl e.key))

/-- A key that comes next comes out with what its group holds. -/
theorem emitNext_eq (h : g.Queued) {before after : List GroupEntry}
    (hg : g.groups = before ++ e :: after) (ho : g.order = e.key :: after.map (·.key))
    (c : Control) : g.emitNext c =
      if g.info.removeProduced then
        ⟨.row, { g with
          groups := before ++ after
          order := after.map (·.key)
          charged := g.charged - e.memory }, (c.setReg g.reg (g.rowOf e)).release e.memory⟩
      else ⟨.row, { g with order := after.map (·.key) }, c.setReg g.reg (g.rowOf e)⟩ := by
  have hfind : Grouping.find? { g with order := after.map (·.key) } e.key = some e :=
    h.find?_key (by simp [hg])
  simp only [Grouping.emitNext, ho, hfind, removed, h.eraseP_key hg]
  rfl

end Queued

/-! ## What is done with groups -/

theorem queued_of_nil (hg : g.groups = []) (ho : g.order = []) : g.Queued := by
  refine ⟨?_, ?_, fun _ => ho⟩
  · rw [hg]
    exact .nil
  · rw [ho]
    exact List.nil_suffix

/-- A group is added for a key that has none. -/
theorem Queued.added (h : g.Queued) (hn : g.has key = false) : (g.added key).Queued := by
  have hkeys : (g.added key).groups.map (·.key) = g.groups.map (·.key) ++ [key] := List.map_append
  refine ⟨?_, ?_, fun hs => ?_⟩
  · rw [hkeys]
    refine List.pairwise_append.2 ⟨h.distinct, List.pairwise_singleton .., fun a ha b hb => ?_⟩
    obtain ⟨e, he, rfl⟩ := List.mem_map.1 ha
    rw [List.mem_singleton.1 hb]
    exact Bool.eq_false_iff.2 (List.any_eq_false.1 hn e he)
  · rw [hkeys]
    simp only [Grouping.added]
    split
    · rename_i hs
      rw [h.streaming hs]
      exact List.nil_suffix
    · obtain ⟨first, hfirst⟩ := h.order
      exact ⟨first, by rw [← List.append_assoc, hfirst]⟩
  · exact (if_pos hs).trans (h.streaming hs)

/-- What a group holds is no matter of the queue. -/
theorem Queued.update {f : GroupEntry → GroupEntry} (h : g.Queued)
    (hf : ∀ e, (f e).key = e.key) (charged : Nat) :
    Queued { g with groups := update key f g.groups, charged } := by
  have hkeys : (Grouping.update key f g.groups).map (·.key) = g.groups.map (·.key) :=
    map_update hf
  refine ⟨?_, ?_, h.streaming⟩
  · rw [hkeys]
    exact h.distinct
  · rw [hkeys]
    exact h.order

/-- The next key is taken from the queue. -/
theorem Queued.dequeue (h : g.Queued) (ho : g.order = key :: rest) :
    Queued { g with order := rest } := by
  refine ⟨h.distinct, ?_, fun hs => ?_⟩
  · exact (List.suffix_cons key rest).trans (ho ▸ h.order)
  · cases ho.symm.trans (h.streaming hs)

/-- The next key is taken from the queue and its group goes with it. -/
theorem Queued.remove (h : g.Queued) (ho : g.order = key :: rest) (e : GroupEntry) :
    (removed { g with order := rest } key e).Queued := by
  obtain ⟨before, waiting, hg, hw⟩ := h.exists_waiting
  obtain ⟨x, after, rfl, rfl, rfl⟩ := List.map_eq_cons_iff.1 (hw.symm.trans ho)
  have herase := h.eraseP_key hg
  refine ⟨?_, ?_, fun hs => ?_⟩
  · simp only [removed, herase]
    refine h.distinct.sublist ?_
    rw [hg]
    exact ((List.sublist_cons_self x after).append_left before).map _
  · simp only [removed, herase, List.map_append]
    exact List.suffix_append ..
  · cases ho.symm.trans (h.streaming hs)

end Grouping
end ShardQuery
