import ShardQuery.Proofs.Session.Visits

/-!
How many rows a call returns. Rows that a failed call has pulled are kept and handed out by the next
call that ends well, all of them, so its rows are as many as the largest limit among its own and
those of the failed calls before it.
-/

namespace ShardQuery

namespace Query
variable {q : Query} {rowLimit : Option Nat} {m n : Nat}

theorem advance_pending (hl : rowLimit = some n) (hn : n ≤ m) (hq : q.pending.size ≤ m) :
    (q.advance rowLimit).2.pending.size ≤ m := by
  induction h : q.root.work using Nat.strongRecOn generalizing q with
  | ind k ih =>
    have hw := q.root.pull_work q.control
    rw [advance_eq]
    split
    · exact hq
    · rename_i hlt
      simp only
      split
      · rename_i hr
        refine ih _ (h ▸ hw.2 hr) ?_ rfl
        simp only [hl, Option.any_some, decide_eq_true_eq, Nat.not_le] at hlt
        simp only [Array.size_push]
        omega
      all_goals exact hq

theorem deliver_pending (hl : rowLimit = some n) (hn : n ≤ m) (hq : q.pending.size ≤ m)
    (batch : Batch) : (q.deliver rowLimit batch).2.pending.size ≤ m := by
  rw [deliver_eq]
  split
  · exact hq
  · exact advance_pending hl hn (q := q.received batch) hq

theorem issue_pending {r s : Query} {request : FetchRequest} (hi : r.issue request = .ok s) :
    s.pending = r.pending := by
  obtain ⟨control, rfl⟩ := issue_controls hi
  rfl

end Query

namespace Visit

/-- The caller wanted so many rows at most. -/
def Wants (n : Nat) (v : Visit) : Prop := ∃ k, v.options.rowLimit = some k ∧ k ≤ n

/-- The visits after the last one that ended well, the latest first. -/
def sinceOutcome (past : List Visit) : List Visit := past.reverse.takeWhile failed

theorem sinceOutcome_failed {v : Visit} (h : v.failed = true) (past : List Visit) :
    sinceOutcome (past ++ [v]) = v :: sinceOutcome past := by
  simp [sinceOutcome, h]

/-- No failed call since the last outcome that got as far as a fetch wanted more rows than this. -/
def Modest (n : Nat) (past : List Visit) : Prop :=
  ∀ v ∈ sinceOutcome past, v.sent.isSome → v.Wants n

end Visit

namespace Client
open Visit

/-- The visits so far returned as many rows as they may, and so will the next one. -/
structure Bounded (past : List Visit) (left : Option Query) : Prop where
  rows : ∀ {before v after o k n}, past = before ++ v :: after → v.result = .ok o →
    v.options.rowLimit = some k → k ≤ n → Modest n before → o.rows.length ≤ n
  kept : ∀ {q n}, left = some q → Modest n past → q.pending.size ≤ n

namespace Bounded
variable {past : List Visit} {left : Option Query} {v : Visit} {q : Query}

/-- A visit more. -/
theorem snoc (h : Bounded past left) {left' : Option Query}
    (hv : ∀ {o k n}, v.result = .ok o → v.options.rowLimit = some k → k ≤ n → Modest n past →
      o.rows.length ≤ n)
    (hk : ∀ {q n}, left' = some q → Modest n (past ++ [v]) → q.pending.size ≤ n) :
    Bounded (past ++ [v]) left' := by
  refine ⟨fun {before u after o k n} hs ho hl hn hm => ?_, hk⟩
  obtain ⟨rfl, rfl⟩ | ⟨rest, hr⟩ := split_concat hs
  · exact hv ho hl hn hm
  · exact h.rows hr ho hl hn hm

theorem modest_of_failed {n : Nat} (hf : v.failed = true) (hm : Modest n (past ++ [v])) :
    Modest n past ∧ (v.sent.isSome → v.Wants n) := by
  rw [Modest, sinceOutcome_failed hf] at hm
  exact ⟨fun u hu => hm u (List.mem_cons_of_mem _ hu), hm v (List.mem_cons_self ..)⟩

theorem refused (h : Bounded past left) (options : CallOptions) (e : QueryError) :
    Bounded (past ++ [⟨options, none, .error e⟩]) left :=
  h.snoc (by simp) fun hq hm => h.kept hq (modest_of_failed rfl hm).1

/-- A query is kept with no rows after a call that ended well, and after one that failed with the
rows that this has pulled as well. -/
theorem meets {limit : Nat} {fresh : Bool} {a : Attempt} {noted : List Event}
    (h : Bounded past (some q)) (hm : q.Meets limit fresh a v noted left) :
    Bounded (past ++ [v]) left := by
  have hbegun {n : Nat} (hp : Modest n past) : (q.begun limit).pending.size ≤ n :=
    h.kept (q := q) rfl hp
  have hrested {more : Bool} {r s : Query} (hs : (if more then some r.rested else none) = some s) :
      s.pending.size = 0 := by
    cases more with
    | false => cases hs
    | true =>
      cases hs
      rfl
  cases hm with
  | idle ha =>
    refine h.snoc (fun ho hl hn hp => ?_) fun hs _ => hrested hs ▸ Nat.zero_le _
    cases ho
    have := Query.advance_pending hl hn (hbegun hp)
    rw [ha] at this
    simpa [reportOf] using this
  | broken => exact h.snoc (by simp) (by simp)
  | @served _ r s _ batch _ ha hi _ hd =>
    refine h.snoc (fun ho hl hn hp => ?_) fun hs _ => hrested hs ▸ Nat.zero_le _
    cases ho
    have hr := Query.advance_pending hl hn (hbegun hp)
    rw [ha, ← Query.issue_pending hi] at hr
    have := Query.deliver_pending hl hn (q := s.quiet) hr batch
    rw [hd] at this
    simpa [reportOf] using this
  | spoiled => exact h.snoc (by simp) (by simp)
  | @struck _ r s _ ha hi _ =>
    refine h.snoc (by simp) fun {u n} hu hp => ?_
    obtain ⟨hp, hw⟩ := modest_of_failed rfl hp
    obtain ⟨k, hl, hn⟩ := hw rfl
    have hr := Query.advance_pending hl hn (hbegun hp)
    rw [ha, ← Query.issue_pending hi] at hr
    split at hu
    · cases hu
    · cases hu
      exact hr

end Bounded

/-- A call returns at most as many rows as it was to return, unless failed calls since the last
outcome were to return more; then it returns at most as many as they were. -/
theorem course_rows_le {c : Client} {errand : Errand} {attempts : List Attempt}
    {past after : List Visit} {v : Visit} {o : Outcome} {k n : Nat}
    (h : c.course errand attempts none = past ++ v :: after) (ho : v.result = .ok o)
    (hl : v.options.rowLimit = some k) (hn : k ≤ n) (hp : Modest n past) : o.rows.length ≤ n := by
  have hb : Bounded [] (c.opened errand none).toOption := by
    refine ⟨fun hs => by simp at hs, fun {q n} hq _ => ?_⟩
    simp [(idle_new (ok_of_toOption hq)).pending]
  obtain ⟨left, hb⟩ := course_keeps (I := Bounded) (fun h => h.refused _ _) (fun h => h.meets)
    attempts hb
  exact hb.rows h ho hl hn hp

end Client

namespace TwoPages

/-- A scan of three rows: the first one is returned, the two others are pulled by a call that fails
where it needs more, and a call that wants one row follows. -/
def retried : List Visit :=
  site.client.course
    { newId := default
      plan := ⟨0, { root := .receive 0 ⟨.allPartitions, [], []⟩, registers := 1 }⟩ }
    [⟨{ rowLimit := some 1 },
        .replied (.batch { rows := [row 1, row 2, row 3], continuation := some [1] })⟩,
      ⟨{ rowLimit := some 10 }, .replied (.failed (.retryable "busy"))⟩,
      ⟨{ rowLimit := some 1 }, .timedOut 0⟩]
    none

/-- What a call wanted and how many rows it returned. -/
def wantsAndGets (v : Visit) : Option Nat × Option Nat :=
  (v.options.rowLimit, v.result.toOption.map (·.rows.length))

theorem retried_rows : retried.map wantsAndGets =
    [(some 1, some 1), (some 10, none), (some 1, some 2)] := by
  cbv

theorem gets_some {v : Visit} {l : Option Nat} {n : Nat} (h : wantsAndGets v = (l, some n)) :
    ∃ o, v.result = .ok o ∧ v.options.rowLimit = l ∧ o.rows.length = n := by
  obtain ⟨hl, ho⟩ := Prod.mk.inj h
  obtain ⟨o, ho, hn⟩ := Option.map_eq_some_iff.1 ho
  exact ⟨o, ok_of_toOption ho, hl, hn⟩

end TwoPages

open TwoPages in
/-- A call that wants one row gets the two that were kept. -/
theorem Client.course_exceeds_rowLimit :
    ∃ v ∈ retried, ∃ o, v.result = .ok o ∧ v.options.rowLimit = some 1 ∧ o.rows.length = 2 := by
  have hm : (some 1, some 2) ∈ retried.map TwoPages.wantsAndGets := by
    rw [retried_rows]
    simp
  obtain ⟨v, hv, he⟩ := List.mem_map.1 hm
  obtain ⟨o, ho, hl, hn⟩ := gets_some he
  exact ⟨v, hv, o, ho, hl, hn⟩

open TwoPages in
/-- The call before it was to return ten rows, so it may return ten. -/
theorem Client.course_rows_le_retried :
    ∃ past v o, retried = past ++ [v] ∧ v.result = .ok o ∧ v.options.rowLimit = some 1 ∧
      Visit.Modest 10 past ∧ o.rows.length ≤ 10 := by
  obtain ⟨u, _, hu, h1, hr⟩ := List.map_eq_cons_iff.1 retried_rows
  obtain ⟨w, _, rfl, h2, hr⟩ := List.map_eq_cons_iff.1 hr
  obtain ⟨v, _, rfl, h3, hr⟩ := List.map_eq_cons_iff.1 hr
  obtain rfl := List.map_eq_nil_iff.1 hr
  obtain ⟨o, ho, hl, -⟩ := gets_some h3
  have hm : Visit.Modest 10 [u, w] := by
    intro x hx _
    have hx : x ∈ [w, u] := (List.takeWhile_sublist _).mem hx
    rcases List.mem_pair.1 hx with rfl | rfl
    · exact ⟨10, congrArg Prod.fst h2, by decide⟩
    · exact ⟨1, congrArg Prod.fst h1, by decide⟩
  refine ⟨[u, w], v, o, hu, ho, hl, hm, ?_⟩
  unfold retried at hu
  have hs : _ = [u, w] ++ v :: [] := hu
  exact course_rows_le hs ho hl (by decide) hm

end ShardQuery
