import ShardQuery.Proofs.Text.Json
import ShardQuery.Value.Json

/-!
Values can be read back from their documents and texts. What a reader spends on a document is how
deep it is, and doubles are left out: they may come back as their neighbours.
-/

namespace ShardQuery

/-! ## Nesting -/

namespace Json

mutual

/-- How many containers are inside one another. -/
def depth : Json → Nat
  | .arr items => depthItems items + 1
  | .obj fields => depthFields fields + 1
  | _ => 0

def depthItems : List Json → Nat
  | [] => 0
  | x :: xs => max x.depth (depthItems xs)

def depthFields : List (String × Json) → Nat
  | [] => 0
  | (_, x) :: xs => max x.depth (depthFields xs)

end

mutual

/-- Any part that was printed can be kept, if it is not too deep. -/
theorem isKeepable_of_depth : ∀ (j : Json) {levels : Nat}, j.Printable → j.depth ≤ levels →
    isKeepable levels j = true
  | .unreadable, _, h, _ | .float _, _, h, _ => h.elim
  | .null, levels, _, _ | .bool _, levels, _, _ | .int _, levels, _, _ | .str _, levels, _, _ => by
    cases levels <;> rfl
  | .arr items, levels + 1, h, hd => all_isKeepable_items items h (Nat.le_of_succ_le_succ hd)
  | .obj fields, levels + 1, h, hd => all_isKeepable_fields fields h (Nat.le_of_succ_le_succ hd)

theorem all_isKeepable_items : ∀ (items : List Json) {levels : Nat}, PrintableItems items →
    depthItems items ≤ levels → items.all (isKeepable levels) = true
  | [], _, _, _ => rfl
  | x :: xs, _, h, hd => by
    obtain ⟨hx, hxs⟩ := Nat.max_le.1 hd
    rw [List.all_cons, isKeepable_of_depth x h.1 hx, all_isKeepable_items xs h.2 hxs]
    rfl

theorem all_isKeepable_fields : ∀ (fields : List (String × Json)) {levels : Nat},
    PrintableFields fields → depthFields fields ≤ levels →
    fields.all (fun f => isKeepable levels f.2) = true
  | [], _, _, _ => rfl
  | (_, x) :: xs, _, h, hd => by
    obtain ⟨hx, hxs⟩ := Nat.max_le.1 hd
    rw [List.all_cons, isKeepable_of_depth x h.1 hx, all_isKeepable_fields xs h.2 hxs]
    rfl

end

section
variable {levels : Nat}

theorem exists_below_arr {items : List Json} (h : (arr items).depth ≤ levels) :
    ∃ below, levels = below + 1 ∧ depthItems items ≤ below := by
  obtain ⟨below, rfl⟩ := Nat.exists_eq_add_of_le' h
  exact ⟨below + depthItems items, rfl, Nat.le_add_left ..⟩

theorem exists_below_obj {fields : List (String × Json)} (h : (obj fields).depth ≤ levels) :
    ∃ below, levels = below + 1 ∧ depthFields fields ≤ below := by
  obtain ⟨below, rfl⟩ := Nat.exists_eq_add_of_le' h
  exact ⟨below + depthFields fields, rfl, Nat.le_add_left ..⟩

end

theorem printableItems_map {α : Type} {write : α → Json} {as : List α}
    (h : ∀ a ∈ as, (write a).Printable) : PrintableItems (as.map write) := by
  induction as with
  | nil => trivial
  | cons a as ih =>
    obtain ⟨ha, has⟩ := List.forall_mem_cons.1 h
    exact ⟨ha, ih has⟩

/-- Items that are read one by one. -/
theorem list?_map {α : Type} {read : Json → Option α} {write : α → Json} {as : List α}
    (h : ∀ a ∈ as, read (write a) = some a) : list? read (.arr (as.map write)) = some as := by
  induction as with
  | nil => rfl
  | cons a as ih =>
    obtain ⟨ha, has⟩ := List.forall_mem_cons.1 h
    have hrest : (as.map write).mapM read = some as := ih has
    rw [list?, List.map_cons, List.mapM_cons, ha, hrest]
    rfl

end Json

/-! ## Values -/

namespace Value

mutual

/-- There are no doubles in the value, and the text of each timestamp says which one it is. -/
def Legible : Value → Prop
  | .double _ => False
  | .timestamp t => Timestamp.parse? t.text = some t
  | .array items => LegibleItems items
  | .map fields => LegibleFields fields
  | _ => True

def LegibleItems : List Value → Prop
  | [] => True
  | v :: rest => v.Legible ∧ LegibleItems rest

def LegibleFields : List (String × Value) → Prop
  | [] => True
  | (_, v) :: rest => v.Legible ∧ LegibleFields rest

end

theorem int?_toInt32 (n : Int32) : Json.int? (-2 ^ 31) (2 ^ 31) (.int n.toInt) = some n.toInt := by
  have hn : -2 ^ 31 ≤ n.toInt ∧ n.toInt < 2 ^ 31 := ⟨n.le_toInt, n.toInt_lt⟩
  simpa [Json.int?] using hn

theorem int?_toInt64 (n : Int64) : Json.int? (-2 ^ 63) (2 ^ 63) (.int n.toInt) = some n.toInt := by
  have hn : -2 ^ 63 ≤ n.toInt ∧ n.toInt < 2 ^ 63 := ⟨n.le_toInt, n.toInt_lt⟩
  simpa [Json.int?] using hn

theorem nat?_byte (b : UInt8) : Json.nat? 256 (.int b.toNat) = some b.toNat := by
  have hb := b.toNat_lt
  have hlt : (b.toNat : Int) < 256 := by omega
  simp [Json.nat?, hlt]

section
variable {kept : Bool} {levels : Nat} {type : String} {content : Json}

theorem exists_below_tagged (h : (tagged type content).depth ≤ levels) :
    ∃ below, levels = below + 1 ∧ content.depth ≤ below := by
  obtain ⟨below, rfl, hfields⟩ := Json.exists_below_obj h
  exact ⟨below, rfl, (Nat.max_le.1 (Nat.max_le.1 hfields).2).1⟩

theorem opened?_bare :
    opened? kept levels (.obj [("type", .str type)]) = some (type, none, kept) := rfl

theorem opened?_tagged :
    opened? kept levels (tagged type content) = some (type, some content, kept) := rfl

theorem ofJson?_array : ofJson? kept (levels + 1) (tagged "array" content) =
    (items? kept levels content).map .array := by
  rw [ofJson?, opened?_tagged]
  rfl

theorem ofJson?_map : ofJson? kept (levels + 1) (tagged "map" content) =
    (fields? kept levels content).map .map := by
  rw [ofJson?, opened?_tagged]
  rfl

theorem ofJson?_binary : ofJson? kept (levels + 2) (tagged "binary" content) =
    scalar? "binary" (some content) := by
  rw [ofJson?, opened?_tagged]
  rfl

theorem ofJson?_scalar (h : type ∉ ["array", "map", "binary"]) :
    ofJson? kept (levels + 1) (tagged type content) = scalar? type (some content) := by
  rw [ofJson?, opened?_tagged, Option.bind_eq_bind, Option.bind_some]
  split
  all_goals simp_all

theorem fields?_obj {items : List Json} :
    fields? kept (levels + 2) (.obj [("fields", .arr items)]) =
      Json.list? (pair? kept levels) (.arr items) := by
  rw [fields?]
  rfl

theorem list?_bytes (bytes : Bytes) :
    Json.list? (Json.nat? 256) (.arr (bytes.map fun b => .int b.toNat)) =
      some (bytes.map UInt8.toNat) := by
  have hbyte : ∀ n ∈ bytes.map UInt8.toNat, Json.nat? 256 (.int n) = some n := by
    intro n hn
    obtain ⟨b, -, rfl⟩ := List.mem_map.1 hn
    exact nat?_byte b
  have := Json.list?_map hbyte
  rwa [List.map_map] at this

theorem ofNat_toNat_bytes (bytes : Bytes) : (bytes.map UInt8.toNat).map UInt8.ofNat = bytes := by
  simp [Function.comp_def]

end

mutual

/-- A value can be read back from its document. -/
theorem ofJson?_toJson {kept : Bool} : ∀ (v : Value) {levels : Nat}, v.Legible →
    v.toJson.depth ≤ levels → ofJson? kept levels v.toJson = some v
  | .empty, _, _, hd | .jsonNull, _, _, hd | .null, _, _, hd => by
    obtain ⟨below, rfl, -⟩ := Json.exists_below_obj hd
    rw [toJson, ofJson?, opened?_bare]
    rfl
  | .boolean b, _, _, hd | .text b, _, _, hd => by
    obtain ⟨below, rfl, -⟩ := exists_below_tagged hd
    rw [toJson, ofJson?_scalar (by decide), scalar?]
  | .integer n, _, _, hd => by
    obtain ⟨below, rfl, -⟩ := exists_below_tagged hd
    rw [toJson, ofJson?_scalar (by decide), scalar?, int?_toInt32, Option.map_some,
      Int32.ofInt_toInt]
  | .long n, _, _, hd => by
    obtain ⟨below, rfl, -⟩ := exists_below_tagged hd
    rw [toJson, ofJson?_scalar (by decide), scalar?, int?_toInt64, Option.map_some,
      Int64.ofInt_toInt]
  | .double _, _, h, _ => h.elim
  | .timestamp t, _, h, hd => by
    rw [Legible] at h
    obtain ⟨below, rfl, -⟩ := exists_below_tagged hd
    rw [toJson, ofJson?_scalar (by decide), scalar?, h, Option.map_some]
  | .binary bytes, _, _, hd => by
    obtain ⟨below, rfl, hbytes⟩ := exists_below_tagged hd
    obtain ⟨below, rfl, -⟩ := Json.exists_below_arr hbytes
    rw [toJson, ofJson?_binary, scalar?, list?_bytes, Option.map_some, ofNat_toNat_bytes]
  | .array items, _, h, hd => by
    obtain ⟨below, rfl, hcontent⟩ := exists_below_tagged hd
    obtain ⟨below, rfl, hitems⟩ := Json.exists_below_arr hcontent
    rw [toJson, ofJson?_array, items?, list?_toJsonItems items h hitems, Option.map_some]
  | .map fields, _, h, hd => by
    obtain ⟨below, rfl, hcontent⟩ := exists_below_tagged hd
    obtain ⟨below, rfl, hinner⟩ := Json.exists_below_obj hcontent
    obtain ⟨below, rfl, hfields⟩ := Json.exists_below_arr (Nat.max_le.1 hinner).1
    rw [toJson, ofJson?_map, fields?_obj, list?_toJsonFields fields h hfields, Option.map_some]

theorem list?_toJsonItems {kept : Bool} : ∀ (items : List Value) {levels : Nat},
    LegibleItems items → Json.depthItems (toJsonItems items) ≤ levels →
    Json.list? (ofJson? kept levels) (.arr (toJsonItems items)) = some items
  | [], _, _, _ => rfl
  | v :: rest, levels, h, hd => by
    obtain ⟨hv, hrest⟩ := Nat.max_le.1 hd
    have hrest : (toJsonItems rest).mapM (ofJson? kept levels) = some rest :=
      list?_toJsonItems rest h.2 hrest
    rw [toJsonItems, Json.list?, List.mapM_cons, ofJson?_toJson v h.1 hv, hrest]
    rfl

theorem list?_toJsonFields {kept : Bool} : ∀ (fields : Record) {levels : Nat},
    LegibleFields fields → Json.depthItems (toJsonFields fields) ≤ levels →
    Json.list? (pair? kept levels) (.arr (toJsonFields fields)) = some fields
  | [], _, _, _ => rfl
  | (name, v) :: rest, levels, h, hd => by
    obtain ⟨hpair, hrest⟩ := Nat.max_le.1 hd
    have hrest : (toJsonFields rest).mapM (pair? kept levels) = some rest :=
      list?_toJsonFields rest h.2 hrest
    obtain ⟨below, rfl, hv⟩ := Json.exists_below_arr hpair
    have hv : v.toJson.depth ≤ below := (Nat.max_le.1 (Nat.max_le.1 hv).2).1
    rw [toJsonFields, Json.list?, List.mapM_cons, pair?, ofJson?_toJson v h.1 hv, hrest]
    rfl

end

mutual

theorem printable_toJson : ∀ v : Value, v.Legible → v.toJson.Printable
  | .empty, _ | .jsonNull, _ | .null, _ | .boolean _, _ | .text _, _ | .timestamp _, _ => by
    simp [toJson, tagged, Json.Printable, Json.PrintableFields]
  | .integer n, _ => by
    have := n.le_toInt
    have := n.toInt_lt
    refine ⟨trivial, ⟨?_, ?_⟩, trivial⟩ <;> omega
  | .long n, _ => by
    have := n.le_toInt
    have := n.toInt_lt
    refine ⟨trivial, ⟨?_, ?_⟩, trivial⟩ <;> omega
  | .double _, h => h.elim
  | .binary bytes, _ => by
    have hbyte : ∀ b ∈ bytes, (Json.int b.toNat).Printable := by
      intro b _
      have := b.toNat_lt
      refine ⟨?_, ?_⟩ <;> omega
    exact ⟨trivial, Json.printableItems_map hbyte, trivial⟩
  | .array items, h => ⟨trivial, printable_toJsonItems items h, trivial⟩
  | .map fields, h => ⟨trivial, ⟨printable_toJsonFields fields h, trivial⟩, trivial⟩

theorem printable_toJsonItems : ∀ items : List Value, LegibleItems items →
    Json.PrintableItems (toJsonItems items)
  | [], _ => trivial
  | v :: rest, h => ⟨printable_toJson v h.1, printable_toJsonItems rest h.2⟩

theorem printable_toJsonFields : ∀ fields : Record, LegibleFields fields →
    Json.PrintableItems (toJsonFields fields)
  | [], _ => trivial
  | (_, v) :: rest, h =>
    ⟨⟨trivial, printable_toJson v h.1, trivial⟩, printable_toJsonFields rest h.2⟩

end

/-- A value can be read back from its text. -/
theorem decode?_text {v : Value} (h : v.Legible) (hd : v.toJson.depth ≤ Json.maxDepth) :
    decode? v.toJson.text = some v := by
  rw [decode?, Json.parse?_text (printable_toJson v h), Option.bind_some, ofJson?_toJson v h hd]

end Value
end ShardQuery
