import ShardQuery.Proofs.Session.Visits

/-!
Where queries are. A query that goes on is suspended or in the hands of one call, and never both.
Its sequence number grows with each call that ends well, so each token is good for one such call.
-/

namespace ShardQuery

/-- The token that names a query as it stands. -/
def Query.token (q : Query) : Token := ⟨q.id, q.sequence⟩

/-- What callers do with a client and see of it. -/
inductive Happening where
  /-- A call with a token or, to begin a query, without one. Unless it is turned down it runs a
  query. -/
  | called (token : Option Token) (query : Option Uuid)
  /-- A call is over. -/
  | returned (token : Option Token) (query : Option Uuid) (result : Except QueryError Outcome)
  /-- A caller waits no longer for its call. -/
  | forsaken (token : Option Token) (query : Uuid)
  | abandoned (token : Token) (found : Bool)

namespace Happening

/-- The query that begins. -/
def begun? : Happening → Option Uuid
  | called none query => query
  | _ => none

/-- The query that ends: its rows are complete, a failure is for good, or it is given up. -/
def ended? : Happening → Option Uuid
  | returned _ query (.ok o) => if o.token.isNone then query else none
  | returned token query (.error e) => if token.isNone || !e.isRetryable then query else none
  | abandoned token true => some token.query
  | _ => none

/-- The token with which a call ends well. -/
def spent? : Happening → Option Token
  | returned token _ (.ok _) => token
  | _ => none

/-- The token that a call hands out. -/
def granted? : Happening → Option Token
  | returned _ _ (.ok o) => o.token
  | _ => none

/-- The queries that have begun and not ended. The record has the latest first. -/
def live : List Happening → List Uuid
  | [] => []
  | x :: past => x.begun?.toList ++ (live past).filter (x.ended? ≠ some ·)

end Happening

namespace Client
open Happening

/-- The query that a call runs, unless it is turned down. -/
def admits (c : Client) (errand : Errand) (options : CallOptions) (token : Option Token) :
    Option Uuid :=
  if options.rowLimit = some 0 then none else (c.opened errand token).toOption.map (·.id)

/-- What a client, the calls that wait with the tokens they were made with, and the record of what
has happened can come to. No query gets the id of an earlier one. -/
inductive Chronicle (config : Config) :
    Client → List (Option Token × Call) → List Happening → Prop where
  | new : Chronicle config { config } [] []
  | returns {c d : Client} {calls : List (Option Token × Call)} {record : List Happening}
    {errand : Errand} {options : CallOptions} {token : Option Token}
    {result : Except QueryError Outcome} (h : Chronicle config c calls record)
    (hn : token = none → errand.newId ∉ record.filterMap begun?)
    (he : c.execute errand.newId errand.plan errand.bindings options token = (d, .done result)) :
    Chronicle config d calls (.returned token (c.admits errand options token) result ::
      .called token (c.admits errand options token) :: record)
  | waits {c d : Client} {calls : List (Option Token × Call)} {record : List Happening}
    {errand : Errand} {options : CallOptions} {token : Option Token} {call : Call}
    (h : Chronicle config c calls record)
    (hn : token = none → errand.newId ∉ record.filterMap begun?)
    (he : c.execute errand.newId errand.plan errand.bindings options token = (d, .waiting call)) :
    Chronicle config d ((token, call) :: calls)
      (.called token (c.admits errand options token) :: record)
  | finishes {c : Client} {before after : List (Option Token × Call)} {record : List Happening}
    {token : Option Token} {call : Call}
    (h : Chronicle config c (before ++ (token, call) :: after) record) (fate : Fate) :
    Chronicle config (c.finish call fate).1 (before ++ after)
      (.returned token (some call.query.id) (c.finish call fate).2 :: record)
  | forsaken {c : Client} {before after : List (Option Token × Call)} {record : List Happening}
    {token : Option Token} {call : Call}
    (h : Chronicle config c (before ++ (token, call) :: after) record) :
    Chronicle config (c.forsake call) (before ++ after) (.forsaken token call.query.id :: record)
  | abandoned {c : Client} {calls : List (Option Token × Call)} {record : List Happening}
    (h : Chronicle config c calls record) (token : Token) :
    Chronicle config (c.abandon token).1 calls (.abandoned token (c.abandon token).2 :: record)

end Client

/-! ## Tokens and the record -/

namespace Happening

theorem mem_filterMap_cons {β : Type} {f : Happening → Option β} {x : Happening}
    {past : List Happening} {b : β} :
    b ∈ (x :: past).filterMap f ↔ f x = some b ∨ b ∈ past.filterMap f := by
  simp only [List.mem_filterMap, List.mem_cons, exists_eq_or_imp]

theorem mem_live_cons {x : Happening} {past : List Happening} {id : Uuid} :
    id ∈ live (x :: past) ↔ x.begun? = some id ∨ id ∈ live past ∧ x.ended? ≠ some id := by
  simp [live]

/-- What is so of the tokens that name the held queries, and of the record. -/
structure Orderly (held : List Token) (record : List Happening) : Prop where
  nodup : (held.map Token.query).Nodup
  mem_live : ∀ id, id ∈ held.map Token.query ↔ id ∈ live record
  begun : ∀ id ∈ live record, id ∈ record.filterMap begun?
  ended : ∀ id ∈ record.filterMap ended?, id ∈ record.filterMap begun? ∧ id ∉ live record
  spent : ∀ t ∈ record.filterMap spent?, t.query ∈ record.filterMap begun? ∧
    ∀ s ∈ held, s.query = t.query → t.sequence < s.sequence
  once : (record.filterMap spent?).Nodup
  last : ∀ {later x earlier id}, record = later ++ x :: earlier → x.ended? = some id →
    ∀ t ∈ later.filterMap spent?, t.query ≠ id

namespace Orderly
variable {held held' rest : List Token} {record : List Happening} {x : Happening} {s : Token}

theorem nil : Orderly [] [] where
  nodup := .nil
  mem_live := by simp [live]
  begun := by simp [live]
  ended := by simp
  spent := by simp
  once := .nil
  last h := by simp at h

theorem perm (h : Orderly held record) (hp : held.Perm held') : Orderly held' record where
  nodup := (hp.map _).nodup_iff.1 h.nodup
  mem_live id := (hp.map _).mem_iff.symm.trans (h.mem_live id)
  begun := h.begun
  ended := h.ended
  spent t ht := ⟨(h.spent t ht).1, fun s hs => (h.spent t ht).2 s (hp.mem_iff.2 hs)⟩
  once := h.once
  last := h.last

/-- One more happening. What begins has an id of its own, what ends has gone on so far, and a token
that is spent named a held query, whose sequence number has grown. -/
theorem cons (h : Orderly held record) (hn : (held'.map Token.query).Nodup)
    (hl : ∀ id, id ∈ held'.map Token.query ↔ id ∈ live (x :: record))
    (hb : ∀ id, x.begun? = some id → id ∉ record.filterMap begun?)
    (he : ∀ id, x.ended? = some id → id ∈ live record)
    (hs : ∀ t, x.spent? = some t → t ∈ held)
    (hg : ∀ s ∈ held', x.begun? = some s.query ∧ x.spent? = none ∨ ∃ r ∈ held,
      r.query = s.query ∧ r.sequence ≤ s.sequence ∧ (x.spent? = some r → r.sequence < s.sequence)) :
    Orderly held' (x :: record) := by
  have hlive : ∀ t ∈ held, t.query ∈ live record :=
    fun t ht => (h.mem_live _).1 (List.mem_map_of_mem ht)
  refine ⟨hn, hl, ?begun, ?ended, ?spent, ?once, ?last⟩
  case begun =>
    intro id hid
    rw [mem_filterMap_cons]
    exact (mem_live_cons.1 hid).imp_right fun hid => h.begun id hid.1
  case ended =>
    intro id hid
    rw [mem_filterMap_cons] at hid ⊢
    rw [mem_live_cons]
    rcases hid with hx | hid
    · have hbegun := h.begun id (he id hx)
      exact ⟨.inr hbegun, fun hm => hm.elim (hb id · hbegun) (·.2 hx)⟩
    · obtain ⟨hbegun, hgone⟩ := h.ended id hid
      exact ⟨.inr hbegun, fun hm => hm.elim (hb id · hbegun) (hgone ·.1)⟩
  case spent =>
    intro t ht
    rw [mem_filterMap_cons] at ht ⊢
    rcases ht with hx | ht
    · refine ⟨.inr (h.begun _ (hlive t (hs t hx))), fun s hmem hq => ?_⟩
      obtain ⟨-, hnone⟩ | ⟨r, hr, hrs, -, hlt⟩ := hg s hmem
      · rw [hx] at hnone
        cases hnone
      · obtain rfl : r = t := List.inj_on_of_nodup_map h.nodup hr (hs t hx) (hrs.trans hq)
        exact hlt hx
    · obtain ⟨hbegun, hless⟩ := h.spent t ht
      refine ⟨.inr hbegun, fun s hmem hq => ?_⟩
      obtain ⟨hnew, -⟩ | ⟨r, hr, hrs, hle, -⟩ := hg s hmem
      · exact (hb _ hnew (hq ▸ hbegun)).elim
      · exact (hless r hr (hrs.trans hq)).trans_le hle
  case once =>
    rw [List.filterMap_cons]
    cases hx : x.spent? with
    | none => exact h.once
    | some t =>
      refine List.nodup_cons.2 ⟨fun ht => ?_, h.once⟩
      exact absurd ((h.spent t ht).2 t (hs t hx) rfl) (Nat.lt_irrefl _)
  case last =>
    intro later y earlier id hr hy t ht hq
    cases later with
    | nil => simp at ht
    | cons z later =>
      obtain ⟨rfl, rfl⟩ := List.cons.inj hr
      rw [mem_filterMap_cons] at ht
      rcases ht with hx | ht
      · have hend : id ∈ (later ++ y :: earlier).filterMap ended? :=
          List.mem_filterMap.2 ⟨y, by simp, hy⟩
        exact (h.ended id hend).2 (hq ▸ hlive t (hs t hx))
      · exact h.last rfl hy t ht hq

/-- A query begins. -/
theorem begin (h : Orderly held record) {id : Uuid} (hid : id ∉ record.filterMap begun?) :
    Orderly (⟨id, 0⟩ :: held) (.called none (some id) :: record) := by
  refine h.cons ?_ (fun i => ?_) ?_ nofun nofun fun s hs => ?_
  · exact List.nodup_cons.2 ⟨fun hm => hid (h.begun id ((h.mem_live id).1 hm)), h.nodup⟩
  · simp only [mem_live_cons, List.map_cons, List.mem_cons, h.mem_live, begun?, ended?,
      Option.some.injEq, ne_eq, reduceCtorEq, not_false_eq_true, and_true, eq_comm]
  · intro i hi
    cases hi
    exact hid
  · rcases List.mem_cons.1 hs with rfl | hs
    · exact .inl ⟨rfl, rfl⟩
    · exact .inr ⟨s, hs, rfl, Nat.le_refl _, nofun⟩

/-- Something happens that no query minds. -/
theorem quiet (h : Orderly held record) (hb : x.begun? = none) (he : x.ended? = none)
    (hs : x.spent? = none) : Orderly held (x :: record) := by
  refine h.cons h.nodup (fun id => ?_) (by simp [hb]) (by simp [he]) (by simp [hs]) fun s hm => ?_
  · simp [mem_live_cons, hb, he, h.mem_live]
  · exact .inr ⟨s, hm, rfl, Nat.le_refl _, by simp [hs]⟩

/-- A call ends well and its query goes on. -/
theorem renew (h : Orderly (s :: rest) record) (hb : x.begun? = none) (he : x.ended? = none)
    (hs : ∀ t, x.spent? = some t → t = s) :
    Orderly (⟨s.query, s.sequence + 1⟩ :: rest) (x :: record) := by
  have hn := h.nodup
  refine h.cons hn (fun id => ?_) (by simp [hb]) (by simp [he]) (fun t ht => ?_) fun r hr => ?_
  · simp [mem_live_cons, hb, he, ← h.mem_live]
  · exact hs t ht ▸ List.mem_cons_self ..
  · rcases List.mem_cons.1 hr with rfl | hrest
    · exact .inr ⟨s, List.mem_cons_self .., rfl, Nat.le_succ _, fun _ => Nat.lt_succ_self _⟩
    · refine .inr ⟨r, List.mem_cons_of_mem _ hrest, rfl, Nat.le_refl _, fun hx => ?_⟩
      obtain rfl := hs r hx
      exact ((List.nodup_cons.1 hn).1 (List.mem_map_of_mem hrest)).elim

/-- A query ends. -/
theorem finish (h : Orderly (s :: rest) record) (hb : x.begun? = none)
    (he : x.ended? = some s.query) (hs : ∀ t, x.spent? = some t → t = s) :
    Orderly rest (x :: record) := by
  obtain ⟨hfresh, hn⟩ := List.nodup_cons.1 h.nodup
  refine h.cons hn (fun id => ?_) (by simp [hb]) (fun id hid => ?_) (fun t ht => ?_) fun r hr => ?_
  · have hm := h.mem_live id
    rw [List.map_cons, List.mem_cons] at hm
    rw [mem_live_cons, hb, he, ← hm]
    constructor
    · intro hid
      refine .inr ⟨.inr hid, fun heq => hfresh ?_⟩
      cases heq
      exact hid
    · rintro (hid | ⟨rfl | hid, hne⟩)
      · cases hid
      · exact absurd rfl hne
      · exact hid
  · rw [he] at hid
    cases hid
    exact (h.mem_live _).1 (List.mem_cons_self ..)
  · exact hs t ht ▸ List.mem_cons_self ..
  · refine .inr ⟨r, List.mem_cons_of_mem _ hr, rfl, Nat.le_refl _, fun hx => ?_⟩
    obtain rfl := hs r hx
    exact (hfresh (List.mem_map_of_mem hr)).elim

end Orderly
end Happening

/-! ## What calls do to the suspended queries -/

namespace Client
open Happening
variable {c d : Client} {calls : List (Option Token × Call)} {record : List Happening}
  {errand : Errand} {options : CallOptions} {token : Option Token} {q r : Query} {s : Token}
  {fresh : Bool}

/-- How a call ends whose query was named by a token when it was taken up. -/
inductive Closes (c : Client) (fresh : Bool) (s : Token) :
    Client × Except QueryError Outcome → Prop where
  | rested {d : Client} {r : Query} {o : Outcome}
    (hd : d.suspended = r :: (c.remove s.query).suspended)
    (hr : r.token = ⟨s.query, s.sequence + 1⟩) (ho : o.token = some r.token) :
    Closes c fresh s (d, .ok o)
  | complete {d : Client} {o : Outcome} (hd : d.suspended = c.suspended) (ho : o.token = none) :
    Closes c fresh s (d, .ok o)
  | kept {d : Client} {r : Query} {e : QueryError}
    (hd : d.suspended = r :: (c.remove s.query).suspended) (hr : r.token = s)
    (he : (fresh || !e.isRetryable) = false) : Closes c fresh s (d, .error e)
  | lost {d : Client} {e : QueryError} (hd : d.suspended = c.suspended)
    (he : (fresh || !e.isRetryable) = true) : Closes c fresh s (d, .error e)

theorem settle_closes (c : Client) (fresh more : Bool) (q : Query) :
    Closes c fresh q.token (c.settle more q) := by
  rw [← Prod.mk.eta (p := c.settle more q), settle_result]
  cases more with
  | true => exact .rested (c.settle_suspended q) rfl rfl
  | false => exact .complete (c.suspended_collect q) rfl

theorem settleError_closes (c : Client) (fresh : Bool) (q : Query) (e : QueryError) :
    Closes c fresh q.token (c.settleError fresh q e) := by
  rw [← Prod.mk.eta (p := c.settleError fresh q e), settleError_result]
  cases he : fresh || !e.isRetryable with
  | true => exact .lost (settleError_lost he) he
  | false =>
    obtain ⟨rfl, hr⟩ : fresh = false ∧ e.isRetryable = true := by simpa using he
    exact .kept (c.settleError_suspended q hr) rfl he

theorem token_of_label (h : r.label = q.label) : r.token = q.token :=
  congrArg (fun l => (⟨l.1, l.2.2⟩ : Token)) h

theorem conclude_closes (c : Client) (fresh : Bool) {p : Progress × Query}
    (hp : p.2.token = s) : Closes c fresh s (c.conclude fresh p) := by
  obtain ⟨request | more | e, r⟩ := p
  · exact hp ▸ c.settleError_closes fresh r _
  · exact hp ▸ c.settle_closes fresh more r
  · exact hp ▸ c.settleError_closes fresh r e

theorem finish_closes (c : Client) (call : Call) (fate : Fate) :
    Closes c call.fresh call.query.token (c.finish call fate) := by
  rcases fate with ⟨batch | e | _⟩ | milliseconds
  · exact c.conclude_closes call.fresh (token_of_label (call.query.deliver_label _ batch))
  · exact c.settleError_closes call.fresh (call.query.fetchFailed (.fetch e)) _
  · exact c.settleError_closes call.fresh (Query.fetchFailed { call.query with
      control := call.query.control.emit .fetchCancelled } .cancelled) _
  · exact c.settleError_closes call.fresh call.query _

/-- How a call goes once its query is taken up: it ends, or it waits with the query. -/
inductive Proceeds (c : Client) (fresh : Bool) (s : Token) : Client × CallState → Prop where
  | done {d : Client} {result : Except QueryError Outcome} (h : Closes c fresh s (d, result)) :
    Proceeds c fresh s (d, .done result)
  | waiting {d : Client} {call : Call} (hd : d.suspended = c.suspended)
    (hs : call.query.token = s) (hf : call.fresh = fresh) : Proceeds c fresh s (d, .waiting call)

theorem run_proceeds (c : Client) (options : CallOptions) (fresh : Bool) (q : Query) :
    Proceeds c fresh q.token (c.run options fresh q) := by
  rw [run_eq]
  have hl := Query.advance_label options.rowLimit
    (q.begun (options.maxMemory.getD c.config.maxMemory))
  rcases ha : (q.begun (options.maxMemory.getD c.config.maxMemory)).advance options.rowLimit with
    ⟨request | more | e, r⟩
  all_goals
    rw [ha] at hl
    have hr : r.token = q.token := token_of_label (q := q) hl
  · simp only [follow]
    split
    · exact .done (hr ▸ c.settleError_closes fresh r _)
    · rename_i u hi
      exact .waiting (c.suspended_collect u) ((token_of_label (Query.issue_label hi)).trans hr) rfl
  · exact .done (hr ▸ c.settle_closes fresh more r)
  · exact .done (hr ▸ c.settleError_closes fresh r e)

/-- How a call begins. -/
inductive Begins (c : Client) (errand : Errand) (options : CallOptions) (token : Option Token) :
    Client × CallState → Prop where
  | turnedDown {d : Client} {e : QueryError} (ha : c.admits errand options token = none)
    (hd : d.suspended = c.suspended) : Begins c errand options token (d, .done (.error e))
  | admitted {q : Query} {x : Client × CallState} (ha : c.admits errand options token = some q.id)
    (ho : c.opened errand token = .ok q)
    (hx : Proceeds (c.entered errand token q) token.isNone q.token x) :
    Begins c errand options token x

theorem execute_begins (c : Client) (errand : Errand) (options : CallOptions)
    (token : Option Token) : Begins c errand options token
      (c.execute errand.newId errand.plan errand.bindings options token) := by
  rw [execute_eq]
  split
  · rename_i hz
    exact .turnedDown (if_pos hz) rfl
  · rename_i hz
    have ha : c.admits errand options token = (c.opened errand token).toOption.map (·.id) :=
      if_neg hz
    cases ho : c.opened errand token with
    | error e => exact .turnedDown (by rw [ha, ho]; rfl) rfl
    | ok q => exact .admitted (by rw [ha, ho]; rfl) ho (run_proceeds ..)

/-! ## Each query in one place -/

theorem filter_absent {queries : List Query} {id : Uuid} (h : id ∉ queries.map (·.id)) :
    queries.filter (·.id != id) = queries := by
  refine List.filter_eq_self.2 fun q hq => ?_
  simp only [bne_iff_ne, ne_eq]
  rintro rfl
  exact h (List.mem_map_of_mem hq)

theorem perm_remove (hn : (c.suspended.map (·.id)).Nodup) (hq : q ∈ c.suspended) :
    c.suspended.Perm (q :: (c.remove q.id).suspended) := by
  obtain ⟨before, after, hs⟩ := List.append_of_mem hq
  rw [hs, List.map_append, List.map_cons, List.nodup_middle, ← List.map_append] at hn
  have hr : (c.remove q.id).suspended = before ++ after := by
    rw [← filter_absent (List.nodup_cons.1 hn).1]
    simp [remove, hs]
  rw [hs, hr]
  exact List.perm_middle

/-- The id of a suspended query finds it. -/
theorem find?_of_mem (hn : (c.suspended.map (·.id)).Nodup) (hq : q ∈ c.suspended) :
    c.find? q.id = some q := by
  cases hf : c.find? q.id with
  | none => exact absurd (List.find?_eq_none.1 hf q hq) (by simp)
  | some p =>
    have hid : p.id = q.id := id_of_find? hf
    rw [List.inj_on_of_nodup_map hn (List.mem_of_find?_eq_some hf) hq hid]

/-- The tokens that name the queries which are suspended or in the hands of a call. -/
def held (c : Client) (calls : List (Option Token × Call)) : List Token :=
  c.suspended.map Query.token ++ calls.map (·.2.query.token)

theorem query_held (c : Client) (calls : List (Option Token × Call)) :
    (held c calls).map Token.query = c.suspended.map (·.id) ++ calls.map (·.2.query.id) := by
  simp [held, Query.token, Function.comp_def]

theorem held_middle (c : Client) (before after : List (Option Token × Call))
    (p : Option Token × Call) :
    (held c (before ++ p :: after)).Perm (p.2.query.token :: held c (before ++ after)) := by
  simp only [held, List.map_append, List.map_cons, ← List.append_assoc]
  exact List.perm_middle

/-- A query that is set aside is no longer among the suspended ones. -/
theorem held_remove (calls : List (Option Token × Call)) (hn : (c.suspended.map (·.id)).Nodup)
    (hq : q ∈ c.suspended) (hd : d.suspended = (c.remove q.id).suspended) :
    (held c calls).Perm (q.token :: held d calls) := by
  have h := ((perm_remove hn hq).map Query.token).append_right (calls.map (·.2.query.token))
  simpa only [held, hd, List.map_cons, List.cons_append] using h

theorem suspended_nodup (h : Orderly (held c calls) record) :
    (c.suspended.map (·.id)).Nodup := by
  have := h.nodup
  rw [query_held] at this
  exact this.of_append_left

theorem remove_of_orderly (h : Orderly (s :: held c calls) record) :
    (c.remove s.query).suspended = c.suspended := by
  have hn := (List.nodup_cons.1 h.nodup).1
  rw [query_held] at hn
  exact filter_absent fun hm => hn (List.mem_append_left _ hm)

/-- A call is over whose query was in its hands. -/
theorem closes_orderly (h : Orderly (s :: held c calls) record) (ht : ∀ t, token = some t → t = s)
    {result : Except QueryError Outcome} (hc : Closes c token.isNone s (d, result)) :
    Orderly (held d calls) (.returned token (some s.query) result :: record) := by
  have hspent : ∀ t, spent? (.returned token (some s.query) result) = some t → t = s := by
    intro t h
    cases result with
    | error e => cases h
    | ok o => exact ht t h
  have hheld (hd : d.suspended = c.suspended) : held d calls = held c calls := by
    simp only [held, hd]
  have hback {r : Query} (hd : d.suspended = r :: (c.remove s.query).suspended) :
      held d calls = r.token :: held c calls := by
    simp only [held, hd, remove_of_orderly h, List.map_cons, List.cons_append]
  cases hc with
  | rested hd hr ho =>
    rw [hback hd, hr]
    exact h.renew rfl (by simp [ended?, ho]) hspent
  | complete hd ho =>
    rw [hheld hd]
    exact h.finish rfl (by simp [ended?, ho]) hspent
  | kept hd hr he =>
    rw [hback hd, hr]
    exact h.quiet rfl (by simp [ended?, he]) rfl
  | lost hd he =>
    rw [hheld hd]
    exact h.finish rfl (by simp [ended?, he]) hspent

/-- A query is taken up for a call. -/
theorem entered_orderly (h : Orderly (held c calls) record) (ho : c.opened errand token = .ok q)
    (hn : token = none → errand.newId ∉ record.filterMap begun?) :
    (∀ t, token = some t → t = q.token) ∧
      Orderly (q.token :: held (c.entered errand token q) calls)
        (.called token (some q.id) :: record) := by
  cases token with
  | none =>
    obtain ⟨externals, -, hp⟩ := opened_new ho
    obtain ⟨-, root, -, rfl⟩ := ofPlan_eq hp
    exact ⟨nofun, h.begin (hn rfl)⟩
  | some t =>
    obtain ⟨hfound, hseq, -⟩ := resume_eq_ok.1 ho
    have hid : q.id = t.query := id_of_find? hfound
    refine ⟨fun t' he => ?_, ?_⟩
    · cases he
      rw [Query.token, hid, hseq]
    · have hp := held_remove calls (suspended_nodup h) (List.mem_of_find?_eq_some hfound)
        (d := c.entered errand (some t) q) rfl
      exact (h.perm hp).quiet rfl rfl rfl

/-- What is so of each call that waits. -/
def Bears (p : Option Token × Call) : Prop :=
  p.2.fresh = p.1.isNone ∧ ∀ t, p.1 = some t → t = p.2.query.token

theorem Chronicle.orderly {config : Config} (h : Chronicle config c calls record) :
    Orderly (held c calls) record ∧ ∀ p ∈ calls, Bears p := by
  induction h with
  | new => exact ⟨.nil, List.forall_mem_nil _⟩
  | @returns c d calls record errand options token result h hn he ih =>
    have hb := c.execute_begins errand options token
    rw [he] at hb
    refine ⟨?_, ih.2⟩
    cases hb with
    | turnedDown ha hd =>
      rw [ha]
      have hheld : held d calls = held c calls := by simp only [held, hd]
      rw [hheld]
      refine (ih.1.quiet ?_ rfl rfl).quiet rfl ?_ rfl
      · cases token <;> rfl
      · simp [ended?]
    | admitted ha ho hx =>
      rw [ha]
      obtain ⟨ht, hi⟩ := entered_orderly ih.1 ho hn
      cases hx with
      | done hc => exact closes_orderly hi ht hc
  | @waits c d calls record errand options token call h hn he ih =>
    have hb := c.execute_begins errand options token
    rw [he] at hb
    cases hb with
    | admitted ha ho hx =>
      rw [ha]
      obtain ⟨ht, hi⟩ := entered_orderly ih.1 ho hn
      cases hx with
      | waiting hd hs hf =>
        refine ⟨hi.perm ?_, List.forall_mem_cons.2 ⟨⟨hf, fun t he => ?_⟩, ih.2⟩⟩
        · have := (held_middle d [] calls (token, call)).symm
          simpa only [held, hd, hs, List.nil_append] using this
        · rw [hs]
          exact ht t he
  | @finishes c before after record token call h fate ih =>
    obtain ⟨hf, ht⟩ := ih.2 (token, call) (by simp)
    refine ⟨closes_orderly (ih.1.perm (held_middle ..)) ht ?_, fun p hp => ih.2 p (mem_middle hp)⟩
    exact hf ▸ c.finish_closes call fate
  | @forsaken c before after record token call h ih =>
    have hi := ih.1.perm (held_middle ..)
    refine ⟨(hi.perm ?_).quiet rfl rfl rfl, fun p hp => ih.2 p (mem_middle hp)⟩
    have hkept : (c.remove call.query.id).suspended = c.suspended := remove_of_orderly hi
    simp only [held, forsake, letGo_of, keep, hkept, List.map_cons, List.cons_append]
    exact .refl _
  | @abandoned c calls record h token ih =>
    refine ⟨?_, ih.2⟩
    unfold abandon
    split
    · exact ih.1.quiet rfl rfl rfl
    · rename_i q hfound
      have hid : q.id = token.query := id_of_find? hfound
      have hp := held_remove calls (suspended_nodup ih.1)
        (List.mem_of_find?_eq_some hfound) (d := ((c.remove token.query).collect q.close).1)
        (by rw [suspended_collect, hid])
      refine (ih.1.perm hp).finish rfl (congrArg some hid.symm) fun t ht => ?_
      cases ht

/-- A query is in one place and a token is answered once. Whatever callers do and servers answer,
and in whatever order calls begin and end: each query that has begun and not ended is suspended,
where its id finds it, or in the hands of one call, and is nowhere else, and no other query is
anywhere. At most one call ends well with a token, and none does with a token of a query that has
ended. -/
theorem Chronicle.custody_exclusive {config : Config} (h : Chronicle config c calls record) :
    ((c.suspended.map (·.id) ++ calls.map (·.2.query.id)).Nodup ∧
      ∀ id, id ∈ c.suspended.map (·.id) ++ calls.map (·.2.query.id) ↔ id ∈ live record) ∧
    (∀ q ∈ c.suspended, c.find? q.id = some q) ∧
    (record.filterMap spent?).Nodup ∧
    ∀ later x earlier id, record = later ++ x :: earlier → x.ended? = some id →
      ∀ t ∈ later.filterMap spent?, t.query ≠ id := by
  obtain ⟨hi, -⟩ := h.orderly
  refine ⟨⟨?_, fun id => ?_⟩, fun q hq => find?_of_mem (suspended_nodup hi) hq, hi.once,
    fun later x earlier id => hi.last⟩
  · rw [← query_held]
    exact hi.nodup
  · rw [← query_held]
    exact hi.mem_live id

end Client

namespace TwoPages
open Client Happening

/-- The tokens that the first two calls hand out. -/
def second : Token := ⟨errand.newId, 1⟩

def third : Token := ⟨errand.newId, 2⟩

/-- A call that goes on with a token. -/
def callAgain (c : Client) (token : Token) : Client × CallState :=
  c.execute errand.newId errand.plan errand.bindings {} (some token)

/-- The second call while it waits. -/
def again : Call :=
  match (callAgain paused second).2 with
  | .waiting call => call
  | .done _ => default

/-- Another caller has come with the token of the second call, and then the second page. -/
def crowded : Client :=
  ((callAgain (callAgain paused second).1 second).1.answer again
    (.batch { rows := [row 0], continuation := some [2] })).1

def lastCall : Call :=
  match (callAgain crowded third).2 with
  | .waiting call => call
  | .done _ => default

end TwoPages

open TwoPages Happening in
/-- A caller waits in its third call. With the token of the second one another caller has come too,
while that call waited, and was turned down. -/
theorem Client.Chronicle.custody_exclusive_twoCallers :
    ∃ c record, Chronicle site.client.config c [(some third, lastCall)] record ∧
      live record = [errand.newId] ∧ record.filterMap spent? = [second] ∧
      (c.suspended.map (·.id) ++ [lastCall.query.id]).Nodup ∧ (record.filterMap spent?).Nodup := by
  have hb : begun = (begun.1, .waiting waiting) := by cbv
  have hr : callAgain paused second = ((callAgain paused second).1, .waiting again) := by cbv
  obtain ⟨reason, hl⟩ : ∃ reason, callAgain (callAgain paused second).1 second =
      ((callAgain (callAgain paused second).1 second).1,
        .done (.error (.invalidContinuation reason))) := ⟨_, by cbv⟩
  have ht : callAgain crowded third = ((callAgain crowded third).1, .waiting lastCall) := by cbv
  have hp : (begun.1.finish waiting
      (.replied (.batch { rows := [row 2, row 1], continuation := some [1] }))).1 = paused := by
    unfold paused
    rw [hb]
    rfl
  have h₁ : Chronicle site.client.config begun.1 ([] ++ (none, waiting) :: [])
      [.called none (site.client.admits errand {} none)] := .waits .new (by simp) hb
  have h₂ := h₁.finishes
    (.replied (.batch { rows := [row 2, row 1], continuation := some [1] }))
  rw [hp] at h₂
  have h₃ := h₂.waits (by simp) hr
  have h₄ : Chronicle site.client.config _ ([] ++ (some second, again) :: []) _ :=
    h₃.returns (by simp) hl
  have h₅ := h₄.finishes (.replied (.batch { rows := [row 0], continuation := some [2] }))
  have h₆ := h₅.waits (by simp) ht
  obtain ⟨⟨hn, -⟩, -, ho, -⟩ := h₆.custody_exclusive
  exact ⟨_, _, h₆, by cbv, by cbv, hn, ho⟩

end ShardQuery
