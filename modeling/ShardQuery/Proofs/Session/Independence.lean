import Mathlib.Data.List.Forall2
import Mathlib.Data.Set.Function
import Mathlib.Logic.Function.Iterate
import ShardQuery.Proofs.Session.Custody
import ShardQuery.Proofs.Session.Renaming

/-!
Many callers of one client, each with queries of its own. A caller goes by its own receipts, and
what becomes of a request depends on nothing but the request and the caller. Whatever the order in
which callers have their turns, each gets what it gets from a client of its own.
-/

namespace ShardQuery

/-! ## Callers -/

/-- What a caller has got. -/
inductive Receipt where
  | returned (result : Except QueryError Outcome)
  | abandoned (found : Bool)

namespace Receipt

/-- The query that the receipt has a token of. -/
def query? : Receipt → Option Uuid
  | returned (.ok o) => o.token.map (·.query)
  | _ => none

/-- The receipt but for the id in it. -/
def blind : Receipt → Receipt
  | returned (.ok o) =>
    returned (.ok { o with token := o.token.map fun t => { t with query := default } })
  | returned (.error (.invalidContinuation _)) => returned (.error (.invalidContinuation ""))
  | r => r

end Receipt

/-- A token, by the place of the receipt that it came with. Its sequence number may be another. -/
structure Stub where
  receipt : Nat
  sequence : Nat

def Stub.token? (receipts : List Receipt) (s : Stub) : Option Token :=
  (receipts[s.receipt]?.bind Receipt.query?).map (⟨·, s.sequence⟩)

/-- What a caller does next. -/
inductive Wish where
  /-- A call, with the token if there is one, and what is to become of its request if it is not to
  be answered by the servers. -/
  | call (plan : SharedPlan) (bindings : Bindings) (options : CallOptions) (token : Option Stub)
    (instead : FetchRequest → Option Fate)
  | abandon (token : Stub)

/-- How a caller goes on, if it does, once it has some receipts. It does not go by ids. -/
abbrev Habit := List Receipt → Option Wish

/-- A caller between its turns. -/
structure Desk where
  /-- The call that waits, and what it waits for. -/
  waiting : Option (Call × Fate) := none
  receipts : List Receipt := []

namespace Desk

/-- The turn of a caller, up to where it has to wait or to the end of its wait. A query that begins
gets the id that is meant for the call. -/
def turn (servers : FetchRequest → Except FetchError Batch) (ids : Nat → Uuid) (habit : Habit) :
    Client × Desk → Client × Desk
  | (c, ⟨some (call, fate), receipts⟩) =>
    let (c, result) := c.finish call fate
    (c, ⟨none, receipts ++ [.returned result]⟩)
  | (c, ⟨none, receipts⟩) =>
    match habit (receipts.map .blind) with
    | none => (c, ⟨none, receipts⟩)
    | some (.abandon stub) =>
      match stub.token? receipts with
      | none => (c, ⟨none, receipts ++ [.abandoned false]⟩)
      | some token =>
        let (c, found) := c.abandon token
        (c, ⟨none, receipts ++ [.abandoned found]⟩)
    | some (.call plan bindings options stub instead) =>
      match c.execute (ids receipts.length) plan bindings options
        (stub.bind (Stub.token? receipts)) with
      | (c, .done result) => (c, ⟨none, receipts ++ [.returned result]⟩)
      | (c, .waiting call) =>
        let answer := Fate.replied (.ofAnswer (servers call.request))
        (c, ⟨some (call, (instead call.request).getD answer), receipts⟩)

/-- Some turns of a caller that has a client for itself. -/
def alone (servers : FetchRequest → Except FetchError Batch) (ids : Nat → Uuid) (habit : Habit)
    (config : Config) (turns : Nat) : Client × Desk :=
  (turn servers ids habit)^[turns] ({ config }, {})

/-- What a turn can be. A call is made with a token that came with a receipt, or without one. -/
inductive Turns (ids : Nat → Uuid) : Client × Desk → Client × Desk → Prop
  | ends {c : Client} {call : Call} {fate : Fate} {receipts : List Receipt} :
    Turns ids (c, ⟨some (call, fate), receipts⟩)
      ((c.finish call fate).1, ⟨none, receipts ++ [.returned (c.finish call fate).2]⟩)
  | rests {c : Client} {receipts : List Receipt} :
    Turns ids (c, ⟨none, receipts⟩) (c, ⟨none, receipts⟩)
  | misses {c : Client} {receipts : List Receipt} :
    Turns ids (c, ⟨none, receipts⟩) (c, ⟨none, receipts ++ [.abandoned false]⟩)
  | abandons {c : Client} {receipts : List Receipt} {stub : Stub} {token : Token}
    (ht : stub.token? receipts = some token) :
    Turns ids (c, ⟨none, receipts⟩)
      ((c.abandon token).1, ⟨none, receipts ++ [.abandoned (c.abandon token).2]⟩)
  | returns {c d : Client} {receipts : List Receipt} {stub : Option Stub} {options : CallOptions}
    {result : Except QueryError Outcome} (errand : Errand)
    (hid : errand.newId = ids receipts.length)
    (hd : c.execute errand.newId errand.plan errand.bindings options
      (stub.bind (Stub.token? receipts)) = (d, .done result)) :
    Turns ids (c, ⟨none, receipts⟩) (d, ⟨none, receipts ++ [.returned result]⟩)
  | waits {c d : Client} {receipts : List Receipt} {stub : Option Stub} {options : CallOptions}
    {call : Call} {fate : Fate} (errand : Errand)
    (hid : errand.newId = ids receipts.length)
    (hd : c.execute errand.newId errand.plan errand.bindings options
      (stub.bind (Stub.token? receipts)) = (d, .waiting call)) :
    Turns ids (c, ⟨none, receipts⟩) (d, ⟨some (call, fate), receipts⟩)

theorem turn_turns (servers : FetchRequest → Except FetchError Batch) (ids : Nat → Uuid)
    (habit : Habit) (x : Client × Desk) : Turns ids x (turn servers ids habit x) := by
  obtain ⟨c, waiting, rs⟩ := x
  cases waiting with
  | some p => exact .ends
  | none =>
    simp only [turn]
    cases habit (rs.map .blind) with
    | none => exact .rests
    | some wish =>
      cases wish with
      | abandon stub =>
        simp only
        cases ht : stub.token? rs with
        | none => exact .misses
        | some token => exact .abandons ht
      | call plan bindings options stub instead =>
        simp only
        rcases he : c.execute (ids rs.length) plan bindings options
          (stub.bind (Stub.token? rs)) with ⟨d, call | result⟩
        · exact .waits ⟨ids rs.length, plan, bindings⟩ rfl he
        · exact .returns ⟨ids rs.length, plan, bindings⟩ rfl he

end Desk

/-- Callers that share a client. -/
structure Hall (ι : Type) where
  client : Client
  desks : ι → Desk

namespace Hall
variable {ι : Type} [DecidableEq ι]

def turn (servers : FetchRequest → Except FetchError Batch) (ids : ι → Nat → Uuid)
    (habits : ι → Habit) (h : Hall ι) (i : ι) : Hall ι :=
  let (client, desk) := Desk.turn servers (ids i) (habits i) (h.client, h.desks i)
  ⟨client, Function.update h.desks i desk⟩

/-- What callers come to that have their turns in some order. -/
def run (servers : FetchRequest → Except FetchError Batch) (ids : ι → Nat → Uuid)
    (habits : ι → Habit) (config : Config) (order : List ι) : Hall ι :=
  order.foldl (turn servers ids habits) ⟨{ config }, fun _ => {}⟩

end Hall

/-! ## Callers with other ids -/

/-- The same receipt, with an id for another. -/
inductive Receipt.Renamed (R : Uuid → Uuid → Prop) : Receipt → Receipt → Prop
  | returned {x y : Except QueryError Outcome} (h : Tally R (Outcome.Renamed R) x y) :
    Receipt.Renamed R (.returned x) (.returned y)
  | abandoned (found : Bool) : Receipt.Renamed R (.abandoned found) (.abandoned found)

section
variable {R : Uuid → Uuid → Prop} {r s : Receipt} {rs ss : List Receipt}

theorem Receipt.Renamed.blind (h : r.Renamed R s) : r.blind = s.blind := by
  cases h with
  | abandoned => rfl
  | returned h =>
    cases h with
    | error h =>
      cases h with
      | refl => rfl
      | unknown => simp only [Receipt.blind]
      | stale => simp only [Receipt.blind]
    | @ok o p h =>
      obtain ⟨rows, token, consumed, total, memory⟩ := o
      obtain ⟨_, token', _, _, _⟩ := p
      obtain ⟨rfl, ht, rfl, rfl, rfl⟩ := h
      cases ht with
      | none => rfl
      | some ht => simp [Receipt.blind, ht.sequence]

theorem Receipt.map_blind (h : List.Forall₂ (Receipt.Renamed R) rs ss) :
    ss.map Receipt.blind = rs.map Receipt.blind := by
  induction h with
  | nil => rfl
  | cons hr _ ih => rw [List.map_cons, List.map_cons, ih, hr.blind]

theorem Receipt.Renamed.query? (h : r.Renamed R s) : Option.Rel R r.query? s.query? := by
  cases h with
  | abandoned => exact .none
  | returned h =>
    cases h with
    | error => exact .none
    | @ok o p h =>
      have ht := h.token
      simp only [Receipt.query?]
      generalize o.token = x at ht
      generalize p.token = y at ht
      cases ht with
      | none => exact .none
      | some ht => exact .some ht.query

theorem Stub.token?_renamed (h : List.Forall₂ (Receipt.Renamed R) rs ss) (stub : Stub) :
    Option.Rel (Token.Renamed R) (stub.token? rs) (stub.token? ss) := by
  obtain ⟨n, sequence⟩ := stub
  simp only [Stub.token?]
  induction h generalizing n with
  | nil => exact .none
  | @cons r s rs ss hr _ ih =>
    cases n with
    | succ n => simpa using ih n
    | zero =>
      have hq := hr.query?
      simp only [List.getElem?_cons_zero, Option.bind_some]
      generalize r.query? = x at hq
      generalize s.query? = y at hq
      cases hq with
      | none => exact .none
      | some hq => exact .some ⟨hq, rfl⟩

theorem Stub.bind_renamed (h : List.Forall₂ (Receipt.Renamed R) rs ss) (stub : Option Stub) :
    Option.Rel (Token.Renamed R) (stub.bind (Stub.token? rs)) (stub.bind (Stub.token? ss)) := by
  cases stub with
  | none => exact .none
  | some stub => exact stub.token?_renamed h

end

/-- Two callers that are alike but for the ids, and their clients. -/
structure Mirrors (R : Uuid → Uuid → Prop) (x y : Client × Desk) : Prop where
  client : x.1.Renamed R y.1
  waiting : Option.Rel (fun p q => p.1.Renamed R q.1 ∧ q.2 = p.2) x.2.waiting y.2.waiting
  receipts : List.Forall₂ (Receipt.Renamed R) x.2.receipts y.2.receipts

namespace Mirrors
variable {R : Uuid → Uuid → Prop} {x y : Client × Desk} {c d : Client} {rs ss : List Receipt}
  {r s : Receipt}

/-- A turn ends with a receipt. -/
theorem receive (hc : c.Renamed R d) (h : List.Forall₂ (Receipt.Renamed R) rs ss)
    (hr : r.Renamed R s) : Mirrors R (c, ⟨none, rs ++ [r]⟩) (d, ⟨none, ss ++ [s]⟩) :=
  ⟨hc, .none, List.rel_append h (.cons hr .nil)⟩

theorem turn (hR : Relator.BiUnique R) (h : Mirrors R x y) {ids ids' : Nat → Uuid}
    (hid : R (ids x.2.receipts.length) (ids' x.2.receipts.length))
    (servers : FetchRequest → Except FetchError Batch) (habit : Habit) :
    Mirrors R (Desk.turn servers ids habit x) (Desk.turn servers ids' habit y) := by
  obtain ⟨c, waiting, rs⟩ := x
  obtain ⟨d, waiting', ss⟩ := y
  obtain ⟨hc, hw, hrs⟩ := h
  simp only at hc hw hrs hid
  have hlength : ss.length = rs.length := hrs.length_eq.symm
  have hblind := Receipt.map_blind hrs
  cases hw with
  | @some p q hp =>
    obtain ⟨k, _⟩ := p
    obtain ⟨l, fate⟩ := q
    obtain ⟨hk, rfl⟩ := hp
    have he := hc.finish hR hk fate
    exact receive he.client hrs (.returned he.result)
  | none =>
    simp only [Desk.turn, hblind]
    cases habit (rs.map .blind) with
    | none => exact ⟨hc, .none, hrs⟩
    | some wish =>
      cases wish with
      | abandon stub =>
        have ht := stub.token?_renamed hrs
        simp only
        generalize stub.token? rs = t at ht
        generalize stub.token? ss = t' at ht
        cases ht with
        | none => exact receive hc hrs (.abandoned false)
        | some ht =>
          obtain ⟨ha, hf⟩ := hc.abandon hR ht
          simp only [hf]
          exact receive ha hrs (.abandoned _)
      | call plan bindings options stub instead =>
        have hs := hc.execute hR ⟨ids rs.length, plan, bindings⟩ options hid
          (Stub.bind_renamed hrs stub)
        simp only [hlength] at hs ⊢
        generalize c.execute (ids rs.length) plan bindings options
          (stub.bind (Stub.token? rs)) = u at hs
        generalize d.execute (ids' rs.length) plan bindings options
          (stub.bind (Stub.token? ss)) = v at hs
        obtain ⟨c', state⟩ := u
        obtain ⟨d', state'⟩ := v
        obtain ⟨hc', hstate⟩ := hs
        cases hstate with
        | done hx => exact receive hc' hrs (.returned hx)
        | waiting hk =>
          obtain ⟨hk⟩ := hk
          exact ⟨hc', .some ⟨.to hk, rfl⟩, hrs⟩

end Mirrors

/-! ## Queries of other callers -/

namespace Client
variable {c d : Client} {u : Uuid} {fresh : Bool} {s : Token} {errand : Errand}
  {options : CallOptions} {token : Option Token}

theorem conclude_config (c : Client) (fresh : Bool) (x : Progress × Query) :
    (c.conclude fresh x).1.config = c.config := by
  obtain ⟨request | more | e, q⟩ := x
  · exact c.settleError_config q fresh _
  · exact c.settle_config q more
  · exact c.settleError_config q fresh e

theorem finish_config (c : Client) (call : Call) (fate : Fate) :
    (c.finish call fate).1.config = c.config := by
  rcases fate with ⟨batch | e | _⟩ | milliseconds
  · exact c.conclude_config ..
  all_goals exact c.settleError_config ..

theorem run_config (c : Client) (options : CallOptions) (fresh : Bool) (q : Query) :
    (c.run options fresh q).1.config = c.config := by
  rw [run_eq]
  generalize (q.begun _).advance _ = x
  obtain ⟨request | more | e, r⟩ := x
  · simp only [follow]
    split
    · exact c.settleError_config ..
    · exact c.config_collect _
  · exact c.settle_config ..
  · exact c.settleError_config ..

theorem execute_config (c : Client) (errand : Errand) (options : CallOptions)
    (token : Option Token) :
    (c.execute errand.newId errand.plan errand.bindings options token).1.config = c.config := by
  rw [execute_eq]
  split
  · rfl
  · split
    · rfl
    · exact (run_config ..).trans (c.entered_config ..)

theorem Closes.find? {x : Client × Except QueryError Outcome} (h : Closes c fresh s x)
    (hu : u ≠ s.query) : x.1.find? u = c.find? u := by
  have hkept {d : Client} {r : Query} (hd : d.suspended = r :: (c.remove s.query).suspended)
      (hr : r.id = s.query) : d.find? u = c.find? u := by
    rw [← hr] at hd hu
    have hs : d.suspended = (c.keep r).suspended := hd
    rw [find?_of_suspended hs, find?_keep_eq, if_neg hu]
  cases h with
  | rested hd hr => exact hkept hd (congrArg Token.query hr)
  | complete hd => exact find?_of_suspended hd u
  | kept hd hr => exact hkept hd (congrArg Token.query hr)
  | lost hd => exact find?_of_suspended hd u

/-- A call begins with the query of its token, or with a new one. -/
theorem id_of_opened {q : Query} (h : c.opened errand token = .ok q) :
    q.id = (token.map (·.query)).getD errand.newId := by
  cases token with
  | none =>
    obtain ⟨externals, -, hp⟩ := opened_new h
    obtain ⟨-, root, -, rfl⟩ := ofPlan_eq hp
    rfl
  | some t => exact id_of_find? (resume_eq_ok.1 h).1

theorem Begins.find? {x : Client × CallState} (h : Begins c errand options token x)
    (hu : u ≠ (token.map (·.query)).getD errand.newId) : x.1.find? u = c.find? u := by
  cases h with
  | turnedDown ha hd => exact find?_of_suspended hd u
  | @admitted q _ ha ho hx =>
    rw [← id_of_opened ho] at hu
    have hentered : (c.entered errand token q).find? u = c.find? u := by
      cases token with
      | none => rfl
      | some t => exact (find?_remove ..).trans (if_neg hu)
    cases hx with
    | done hc => exact (hc.find? hu).trans hentered
    | waiting hd => exact (find?_of_suspended hd u).trans hentered

theorem abandon_config (c : Client) (t : Token) : (c.abandon t).1.config = c.config := by
  unfold abandon
  split
  · rfl
  · exact config_collect ..

theorem abandon_find? (c : Client) {t : Token} (hu : u ≠ t.query) :
    (c.abandon t).1.find? u = c.find? u := by
  unfold abandon
  split
  · rfl
  · have hr := c.find?_remove t.query u
    rw [if_neg hu] at hr
    exact (find?_of_suspended (suspended_collect ..) u).trans hr

end Client

namespace Mirrors
variable {R : Uuid → Uuid → Prop} {x y : Client × Desk} {ids ids' : Nat → Uuid} {u : Uuid}

/-- A turn leaves alone what is not the caller's. -/
theorem find?_turn (h : Mirrors R x y)
    (hid : R (ids x.2.receipts.length) (ids' x.2.receipts.length)) (hu : ∀ v, ¬ R u v)
    {z : Client × Desk} (hz : Desk.Turns ids x z) : z.1.find? u = x.1.find? u := by
  have hne {v w : Uuid} (hv : R v w) : u ≠ v := fun he => hu w (he ▸ hv)
  obtain ⟨d, waiting, ss⟩ := y
  obtain ⟨-, hw, hrs⟩ := h
  simp only at hw hrs
  have hcalled {c e : Client} {stub : Option Stub} {errand : Errand} {options : CallOptions}
      {state : CallState} (hnew : errand.newId = ids x.2.receipts.length)
      (he : c.execute errand.newId errand.plan errand.bindings options
        (stub.bind (Stub.token? x.2.receipts)) = (e, state)) : e.find? u = c.find? u := by
    have hb := c.execute_begins errand options (stub.bind (Stub.token? x.2.receipts))
    rw [he] at hb
    refine hb.find? ?_
    have ht := Stub.bind_renamed hrs stub
    generalize stub.bind (Stub.token? x.2.receipts) = t at ht
    generalize stub.bind (Stub.token? ss) = t' at ht
    cases ht with
    | none => exact hnew ▸ hne hid
    | some ht => exact hne ht.query
  cases hz with
  | @ends c call fate receipts =>
    cases hw with
    | @some _ q hk =>
      obtain ⟨l, _⟩ := q
      obtain ⟨⟨hk⟩, -⟩ := hk
      exact (c.finish_closes call fate).find? (hne hk)
  | rests => rfl
  | misses => rfl
  | @abandons c receipts stub token ht =>
    have hr := stub.token?_renamed hrs
    simp only [ht] at hr
    generalize stub.token? ss = t' at hr
    cases hr with
    | some hr => exact c.abandon_find? (hne hr.query)
  | returns errand hnew hd => exact hcalled hnew hd
  | waits errand hnew hd => exact hcalled hnew hd

end Mirrors

/-! ## Whole runs -/

namespace Desk
variable {servers : FetchRequest → Except FetchError Batch} {ids : Nat → Uuid} {habit : Habit}
  {x : Client × Desk}

theorem Turns.config {y : Client × Desk} (h : Turns ids x y) : y.1.config = x.1.config := by
  cases h with
  | ends => exact Client.finish_config ..
  | rests => rfl
  | misses => rfl
  | abandons => exact Client.abandon_config ..
  | returns _ _ hd => exact (congrArg (·.1.config) hd).symm.trans (Client.execute_config ..)
  | waits _ _ hd => exact (congrArg (·.1.config) hd).symm.trans (Client.execute_config ..)

/-- There is at most one receipt for each turn. -/
theorem Turns.length_le {y : Client × Desk} (h : Turns ids x y) :
    y.2.receipts.length ≤ x.2.receipts.length + 1 := by
  cases h <;> simp

theorem alone_succ (config : Config) (n : Nat) : alone servers ids habit config (n + 1) =
    turn servers ids habit (alone servers ids habit config n) :=
  Function.iterate_succ_apply' ..

end Desk

/-- Two ids for one of the first queries of a caller. -/
def Paired (ids ids' : Nat → Uuid) (n : Nat) (u v : Uuid) : Prop :=
  ∃ j < n, u = ids j ∧ v = ids' j

theorem Paired.biUnique {ids ids' : Nat → Uuid} {n : Nat} (h : Set.InjOn ids (Set.Iio n))
    (h' : Set.InjOn ids' (Set.Iio n)) : Relator.BiUnique (Paired ids ids' n) := by
  constructor
  · rintro _ _ v ⟨j, hj, rfl, rfl⟩ ⟨k, hk, rfl, he⟩
    rw [h' hj hk he]
  · rintro u _ _ ⟨j, hj, rfl, rfl⟩ ⟨k, hk, he, rfl⟩
    rw [h hj hk he]

namespace Hall
variable {ι : Type} [DecidableEq ι]

theorem run_concat (servers : FetchRequest → Except FetchError Batch) (ids : ι → Nat → Uuid)
    (habits : ι → Habit) (config : Config) (order : List ι) (i : ι) :
    run servers ids habits config (order ++ [i]) =
      turn servers ids habits (run servers ids habits config order) i := by
  simp [run]

/-- No caller has had more turns than it is to have, and each is like one with a client of its
own. -/
theorem run_mirrors (servers : FetchRequest → Except FetchError Batch) {ids ids' : ι → Nat → Uuid}
    (habits : ι → Habit) (config : Config) {turns : ι → Nat}
    (hids : Set.InjOn (Function.uncurry ids) {p | p.2 < turns p.1})
    (hids' : ∀ i, Set.InjOn (ids' i) (Set.Iio (turns i))) {order : List ι}
    (horder : ∀ i, order.count i ≤ turns i) (k : ι) :
    ((run servers ids habits config order).desks k).receipts.length ≤ order.count k ∧
      Mirrors (Paired (ids k) (ids' k) (turns k))
        ((run servers ids habits config order).client,
          (run servers ids habits config order).desks k)
        (Desk.alone servers (ids' k) (habits k) config (order.count k)) := by
  have hsame {i j : ι} {a b : Nat} (ha : a < turns i) (hb : b < turns j)
      (he : ids i a = ids j b) : (i, a) = (j, b) := hids ha hb he
  induction order using List.reverseRecOn generalizing k with
  | nil => exact ⟨Nat.le_refl _, ⟨rfl, fun _ _ _ => .none⟩, .none, .nil⟩
  | append_singleton order i ih =>
    have hcount : (order ++ [i]).count i = order.count i + 1 := by simp
    have hbefore (j : ι) : order.count j ≤ turns j := by
      have := horder j
      rw [List.count_append] at this
      omega
    replace ih := ih hbefore
    rw [run_concat]
    generalize run servers ids habits config order = h at ih
    obtain ⟨hlength, hi⟩ := ih i
    have hlt : (h.desks i).receipts.length < turns i := by
      have := horder i
      omega
    by_cases hk : k = i
    · -- its own turn is one more turn of the caller that is alone
      subst hk
      rw [hcount, Desk.alone_succ]
      simp only [turn, Function.update_self]
      have hR := Paired.biUnique
        (fun a ha b hb he => congrArg Prod.snd (hsame ha hb he)) (hids' k)
      exact ⟨(Desk.turn_turns ..).length_le.trans (Nat.succ_le_succ hlength),
        hi.turn hR ⟨_, hlt, rfl, rfl⟩ servers (habits k)⟩
    · -- in the turn of another caller its desk stays as it is, and so do its queries
      have hother : (order ++ [i]).count k = order.count k := by
        simp [List.count_append, Ne.symm hk]
      obtain ⟨hlength', hmirror⟩ := ih k
      rw [hother]
      simp only [turn, Function.update_of_ne hk]
      refine ⟨hlength', ⟨?_, fun u v hu => ?_⟩, hmirror.waiting, hmirror.receipts⟩
      · rw [(Desk.turn_turns ..).config]
        exact hmirror.client.config
      · have hapart (w : Uuid) : ¬ Paired (ids i) (ids' i) (turns i) u w := by
          rintro ⟨a, ha, rfl, -⟩
          obtain ⟨b, hb, he, -⟩ := hu
          exact hk (congrArg Prod.fst (hsame ha hb he)).symm
        rw [hi.find?_turn ⟨_, hlt, rfl, rfl⟩ hapart (Desk.turn_turns ..)]
        exact hmirror.client.found u v hu

/-- Callers do not get in each other's way. Let each have queries of its own under ids of their own,
and whatever becomes of a request depend on the request and the caller alone. Then in whatever order
the callers have their turns, each gets one by one the outcomes and errors that it gets, after as
many turns, from a new client with the same settings which is there for this caller alone. They
differ in the ids of the queries only. -/
theorem receipts_renamed (servers : FetchRequest → Except FetchError Batch)
    {ids ids' : ι → Nat → Uuid} (habits : ι → Habit) (config : Config) (order : List ι)
    (hids : Set.InjOn (Function.uncurry ids) {p | p.2 < order.count p.1})
    (hids' : ∀ i, Set.InjOn (ids' i) (Set.Iio (order.count i))) (i : ι) :
    List.Forall₂ (Receipt.Renamed (Paired (ids i) (ids' i) (order.count i)))
      ((run servers ids habits config order).desks i).receipts
      (Desk.alone servers (ids' i) (habits i) config (order.count i)).2.receipts :=
  (run_mirrors servers habits config hids hids' (fun _ => Nat.le_refl _) i).2.receipts

end Hall

namespace TwoPages

/-- A call of the sort over two pages. -/
def sortCall (rowLimit : Option Nat) (token : Option Stub) (instead : Option Fate) : Wish :=
  .call errand.plan [] { rowLimit } token fun _ => instead

/-- One caller wants the sorted rows as they come. The other one wants them one by one, and does not
wait for the second page at first. -/
def habits (slow : Bool) : Habit := fun receipts =>
  if slow then
    [sortCall (some 1) none none, sortCall (some 1) (some ⟨0, 1⟩) (some (.timedOut 5)),
      sortCall (some 1) (some ⟨0, 1⟩) none][receipts.length]?
  else [sortCall none none none, sortCall none (some ⟨0, 1⟩) none][receipts.length]?

def manyIds (slow : Bool) (call : Nat) : Uuid := ⟨.ofNat 128 (2 * call + slow.toNat)⟩

/-- The callers take turns. -/
def order : List Bool := [true, false, false, true, true, false, true, true, false, true]

/-- Where the callers come to. -/
def hall : Hall Bool := .run (servers []) manyIds habits {} order

/-- How many rows there are, if there are any. -/
def gets : Receipt → Option Nat
  | .returned (.ok o) => some o.rows.length
  | _ => none

theorem manyIds_inj {i k : Bool} {j l : Nat} (hj : j < order.length) (hl : l < order.length)
    (h : manyIds i j = manyIds k l) : (i, j) = (k, l) := by
  have ho : order.length = 10 := rfl
  have hi := Bool.toNat_le i
  have hk := Bool.toNat_le k
  have h : 2 * j + i.toNat = 2 * l + k.toNat := by
    have := congrArg (·.bits.toNat) h
    simp only [manyIds, BitVec.toNat_ofNat] at this
    omega
  obtain rfl : j = l := by omega
  cases i <;> cases k <;> simp at h ⊢

end TwoPages

open TwoPages in
/-- The caller that did not wait gets its row from the third call, as it would without the other. -/
theorem Hall.receipts_renamed_twoCallers :
    Set.InjOn (Function.uncurry manyIds) {p | p.2 < order.count p.1} ∧
      (∀ i, Set.InjOn (manyIds false) (Set.Iio (order.count i))) ∧
      (hall.desks true).receipts.map gets = [some 0, none, some 1] ∧
      (hall.desks false).receipts.map gets = [some 0, some 3] ∧
      List.Forall₂ (Receipt.Renamed (Paired (manyIds true) (manyIds false) 6))
        (hall.desks true).receipts
        (Desk.alone (servers []) (manyIds false) (habits true) {} 6).2.receipts := by
  have hlt {i : Bool} {j : Nat} (hj : j < order.count i) : j < order.length :=
    hj.trans_le List.count_le_length
  have hids : Set.InjOn (Function.uncurry manyIds) {p | p.2 < order.count p.1} :=
    fun _ hp _ hq h => manyIds_inj (hlt hp) (hlt hq) h
  have hids' (i : Bool) : Set.InjOn (manyIds false) (Set.Iio (order.count i)) :=
    fun _ hj _ hl h => congrArg Prod.snd (manyIds_inj (hlt hj) (hlt hl) h)
  exact ⟨hids, hids', by cbv, by cbv,
    Hall.receipts_renamed (servers []) habits {} order hids hids' true⟩

end ShardQuery
