import ShardQuery.Proofs.Session.Custody

/-!
How suspended queries are named. Each has a token that some caller got, with one exception: a query
whose caller has stopped waiting for its first call.
-/

namespace ShardQuery
namespace Happening

/-- Some caller got this token, or would have to guess it since a first call was let go. -/
def Known (record : List Happening) (t : Token) : Prop :=
  t ∈ record.filterMap granted? ∨ t.sequence = 0 ∧ .forsaken none t.query ∈ record

theorem Known.cons {record : List Happening} {t : Token} (h : Known record t) (x : Happening) :
    Known (x :: record) t :=
  h.imp (fun hg => mem_filterMap_cons.2 (.inr hg)) fun hf => hf.imp_right (List.mem_cons_of_mem _)

end Happening

namespace Client
open Happening
variable {c d : Client} {calls : List (Option Token × Call)} {record : List Happening}
  {errand : Errand} {token : Option Token} {q : Query} {s : Token}

/-- What is so of the queries that are held and of the tokens handed out. -/
structure Named (c : Client) (calls : List (Option Token × Call)) (record : List Happening) :
    Prop where
  suspended : ∀ q ∈ c.suspended, Known record q.token
  resumed : ∀ p ∈ calls, p.2.fresh = false → Known record p.2.query.token
  fresh : ∀ p ∈ calls, p.2.fresh = true → p.2.query.sequence = 0
  granted : ∀ t ∈ record.filterMap granted?, t.sequence ≠ 0

namespace Named

/-- Something happens that hands out no token and leaves the held queries where they are. -/
theorem cons (h : Named c calls record) {x : Happening} (hx : x.granted? = none)
    (hd : d.suspended = c.suspended) : Named d calls (x :: record) where
  suspended q hq := (h.suspended q (hd ▸ hq)).cons x
  resumed p hp hf := (h.resumed p hp hf).cons x
  fresh := h.fresh
  granted t ht := by
    rw [mem_filterMap_cons, hx] at ht
    exact h.granted t (ht.resolve_left nofun)

/-- A call is over, which leaves the others. -/
theorem closes (h : Named c calls record) {fresh : Bool} {query : Option Uuid}
    (hs : fresh = false → Known record s) {result : Except QueryError Outcome}
    (hc : Closes c fresh s (d, result)) :
    Named d calls (.returned token query result :: record) := by
  have hback {r : Query} (hd : d.suspended = r :: (c.remove s.query).suspended)
      (hr : Known (.returned token query result :: record) r.token) :
      ∀ q ∈ d.suspended, Known (.returned token query result :: record) q.token := by
    intro q hq
    rw [hd] at hq
    rcases List.mem_cons.1 hq with rfl | hq
    · exact hr
    · exact (h.suspended q (List.mem_of_mem_filter hq)).cons _
  cases hc with
  | @rested d r o hd hr ho =>
    refine ⟨hback hd (.inl (mem_filterMap_cons.2 (.inl ho))),
      fun p hp hf => (h.resumed p hp hf).cons _, h.fresh, fun t ht => ?_⟩
    rcases mem_filterMap_cons.1 ht with ht | ht
    · obtain rfl : r.token = t := Option.some.inj (ho.symm.trans ht)
      simp [hr]
    · exact h.granted t ht
  | complete hd ho => exact h.cons ho hd
  | @kept d r e hd hr he =>
    obtain ⟨hf, -⟩ : fresh = false ∧ e.isRetryable = true := by simpa using he
    refine ⟨hback hd (hr ▸ (hs hf).cons _), fun p hp hf => (h.resumed p hp hf).cons _, h.fresh,
      fun t ht => ?_⟩
    exact h.granted t ((mem_filterMap_cons.1 ht).resolve_left nofun)
  | lost hd he => exact h.cons rfl hd

/-- A query is taken up for a call. -/
theorem entered (h : Named c calls record) (ho : c.opened errand token = .ok q) :
    Named (c.entered errand token q) calls record ∧
      (token.isNone = false → Known record q.token) ∧ (token.isNone = true → q.sequence = 0) := by
  cases token with
  | none =>
    obtain ⟨externals, -, hp⟩ := opened_new ho
    obtain ⟨-, root, -, rfl⟩ := ofPlan_eq hp
    exact ⟨⟨h.suspended, h.resumed, h.fresh, h.granted⟩, nofun, fun _ => rfl⟩
  | some t =>
    obtain ⟨hfound, -, -⟩ := resume_eq_ok.1 ho
    refine ⟨⟨fun q hq => ?_, h.resumed, h.fresh, h.granted⟩, fun _ => ?_, nofun⟩
    · exact h.suspended q (List.mem_of_mem_filter hq)
    · exact h.suspended q (List.mem_of_find?_eq_some hfound)

/-- A call that waited waits no longer. -/
theorem without {before after : List (Option Token × Call)} {p : Option Token × Call}
    (h : Named c (before ++ p :: after) record) : Named c (before ++ after) record where
  suspended := h.suspended
  resumed k hk := h.resumed k (mem_middle hk)
  fresh k hk := h.fresh k (mem_middle hk)
  granted := h.granted

end Named

theorem Chronicle.named {config : Config} (h : Chronicle config c calls record) :
    Named c calls record := by
  induction h with
  | new => exact ⟨List.forall_mem_nil _, List.forall_mem_nil _, List.forall_mem_nil _, by simp⟩
  | @returns c d calls record errand options token result h hn he ih =>
    have hb := c.execute_begins errand options token
    rw [he] at hb
    cases hb with
    | turnedDown ha hd => exact (ih.cons rfl rfl).cons rfl hd
    | admitted ha ho hx =>
      obtain ⟨hi, hs, -⟩ := ih.entered ho
      cases hx with
      | done hc => exact (hi.cons rfl rfl).closes (fun hf => (hs hf).cons _) hc
  | @waits c d calls record errand options token call h hn he ih =>
    have hb := c.execute_begins errand options token
    rw [he] at hb
    cases hb with
    | admitted ha ho hx =>
      obtain ⟨hi, hs, hz⟩ := ih.entered ho
      cases hx with
      | waiting hd hq hf =>
        have hj := hi.cons (x := .called token (c.admits errand options token)) rfl hd
        refine ⟨hj.suspended, List.forall_mem_cons.2 ⟨fun h => ?_, hj.resumed⟩,
          List.forall_mem_cons.2 ⟨fun h => ?_, hj.fresh⟩, hj.granted⟩
        · exact hq ▸ (hs (hf ▸ h)).cons _
        · exact (congrArg Token.sequence hq).trans (hz (hf ▸ h))
  | @finishes c before after record token call h fate ih =>
    exact ih.without.closes (ih.resumed (token, call) (by simp)) (c.finish_closes call fate)
  | @forsaken c before after record token call h ih =>
    have hj := ih.without.cons (x := .forsaken token call.query.id) rfl (d := c) rfl
    refine ⟨fun q hq => ?_, hj.resumed, hj.fresh, hj.granted⟩
    rcases List.mem_cons.1 hq with rfl | hq
    · obtain ⟨hf, -⟩ := h.orderly.2 (token, call) (by simp)
      cases token with
      | none => exact .inr ⟨ih.fresh (none, call) (by simp) hf, List.mem_cons_self ..⟩
      | some t => exact (ih.resumed (some t, call) (by simp) hf).cons _
    · exact hj.suspended q (List.mem_of_mem_filter hq)
  | @abandoned c calls record h token ih =>
    refine ⟨fun q hq => ?_, fun p hp hf => (ih.resumed p hp hf).cons _, ih.fresh, fun t ht => ?_⟩
    · unfold abandon at hq
      split at hq
      · exact (ih.suspended q hq).cons _
      · have hq : q ∈ ((c.remove token.query).collect _).1.suspended := hq
        rw [suspended_collect] at hq
        exact (ih.suspended q (List.mem_of_mem_filter hq)).cons _
    · exact ih.granted t ((mem_filterMap_cons.1 ht).resolve_left nofun)

/-- Every suspended query can be resumed or given up by its token, and some caller got this token
unless it is the one that the query began with. Then its first call waited for the servers, and its
caller let go of it. -/
theorem Chronicle.suspended_named {config : Config} (h : Chronicle config c calls record)
    (hq : q ∈ c.suspended) :
    (q.token ∈ record.filterMap granted? ↔ q.sequence ≠ 0) ∧
      (q.sequence = 0 → .forsaken none q.id ∈ record) ∧
      c.resume q.plan q.token = .ok q ∧ (c.abandon q.token).2 = true := by
  have hn := h.named
  have hf := find?_of_mem (suspended_nodup h.orderly.1) hq
  refine ⟨⟨hn.granted q.token, fun hz => ?_⟩, fun hz => ?_, ?_, ?_⟩
  · exact (hn.suspended q hq).resolve_right fun hk => hz hk.1
  · exact ((hn.suspended q hq).resolve_left fun hg => hn.granted _ hg hz).2
  · exact resume_eq_ok.2 ⟨hf, rfl, by simp [SharedPlan.agrees]⟩
  · have hf : c.find? q.token.query = some q := hf
    simp [abandon, hf]

end Client

namespace TwoPages
open Client Happening

/-- The first call has waited, and its caller lets go of it. -/
theorem chronicle_forsaken : Chronicle site.client.config (begun.1.forsake waiting) []
    [.forsaken none waiting.query.id, .called none (site.client.admits errand {} none)] := by
  have hb : begun = (begun.1, .waiting waiting) := by cbv
  have h : Chronicle site.client.config begun.1 ([] ++ (none, waiting) :: [])
      [.called none (site.client.admits errand {} none)] := .waits .new (by simp) hb
  exact h.forsaken

end TwoPages

open TwoPages Happening in
/-- A caller lets go of the first call of its query. The query is kept for good, and nobody has been
told how to name it. -/
theorem Client.Chronicle.forsaken_unnamed :
    ∃ c record, Chronicle site.client.config c [] record ∧ ∃ q, c.suspended = [q] ∧
      record.filterMap granted? = [] := by
  refine ⟨_, _, chronicle_forsaken, waiting.query, ?_, rfl⟩
  have hs : begun.1.suspended = [] := by cbv
  simp [Client.forsake, Client.keep, Client.remove, hs]

open TwoPages Happening in
/-- Only who guesses its id can give up that query. -/
theorem Client.Chronicle.suspended_named_forsaken :
    ∃ c q record, Chronicle site.client.config c [] record ∧ q ∈ c.suspended ∧ q.sequence = 0 ∧
      q.token ∉ record.filterMap granted? ∧ .forsaken none q.id ∈ record ∧
      (c.abandon q.token).2 = true := by
  have hq : waiting.query ∈ (begun.1.forsake waiting).suspended := List.mem_cons_self ..
  have hz : waiting.query.sequence = 0 := by cbv
  obtain ⟨hg, hf, -, ha⟩ := chronicle_forsaken.suspended_named hq
  exact ⟨_, waiting.query, _, chronicle_forsaken, hq, hz, fun h => hg.1 h hz, hf hz, ha⟩

end ShardQuery
