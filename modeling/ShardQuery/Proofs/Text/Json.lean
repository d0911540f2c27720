import Mathlib.Data.List.TakeWhile
import ShardQuery.Proofs.Value.Encoding
import ShardQuery.Text.Json.Reader

/-!
A document can be read back from its text, character by character or byte by byte, unless it has
doubles in it or parts without a value. The scanner finds the tokens that were printed, and the
parser builds the document that they belong to.
-/

namespace ShardQuery

/-! ## Characters out of bytes -/

namespace Text

/-- The characters that come after some bytes are found where they begin. -/
theorem charsFrom_utf8Encode (before : ByteArray) (cs : List Char) :
    charsFrom (before ++ cs.utf8Encode) before.size = cs.map some := by
  induction cs generalizing before with
  | nil =>
    rw [charsFrom, if_neg (by simp)]
    rfl
  | cons c cs ih =>
    have hsize : [c].utf8Encode.size = c.utf8Size := by
      rw [List.utf8Encode_singleton, List.size_toByteArray, String.length_utf8EncodeChar]
    have hbytes : before ++ (c :: cs).utf8Encode = before ++ ([c].utf8Encode ++ cs.utf8Encode) :=
      congrArg (before ++ ·) List.utf8Encode_cons
    have hlt : before.size < (before ++ (c :: cs).utf8Encode).size := by
      have := c.utf8Size_pos
      rw [hbytes, ByteArray.size_append, ByteArray.size_append, hsize]
      omega
    have hc : (before ++ (c :: cs).utf8Encode).utf8DecodeChar? before.size = some c := by
      rw [ByteArray.utf8DecodeChar?_eq_utf8DecodeChar?_extract, hbytes,
        ByteArray.extract_append_eq_right rfl ByteArray.size_append]
      exact List.utf8DecodeChar?_utf8Encode_singleton_append
    rw [charsFrom, if_pos hlt, hc]
    have hrest := ih (before ++ [c].utf8Encode)
    rw [ByteArray.size_append, hsize, ByteArray.append_assoc, ← hbytes] at hrest
    exact congrArg (some c :: ·) hrest

theorem charsOfBytes_textBytes (s : String) : charsOfBytes (textBytes s) = s.toList.map some := by
  have hlist : s.toUTF8.toList = s.toUTF8.data.toList := toList_loop s.toUTF8 0 []
  have hbytes : ByteArray.mk (textBytes s).toArray = ByteArray.empty ++ s.toList.utf8Encode := by
    rw [textBytes, hlist, Array.toArray_toList, String.utf8Encode_toList, ByteArray.empty_append]
    rfl
  rw [charsOfBytes, hbytes]
  exact charsFrom_utf8Encode ByteArray.empty s.toList

end Text

namespace Json

/-! ## Numbers -/

theorem ofDigitChars_cons (c : Char) (cs : List Char) (n : Nat) :
    Nat.ofDigitChars 10 (c :: cs) n = Nat.ofDigitChars 10 cs (Nat.ofDigitChars 10 [c] n) := by
  simp only [Nat.ofDigitChars_eq_foldl, List.foldl_cons, List.foldl_nil]

theorem le_ofDigitChars (cs : List Char) (n : Nat) : n ≤ Nat.ofDigitChars 10 cs n := by
  rw [Nat.ofDigitChars_eq_ofDigitChars_zero]
  have := Nat.le_mul_of_pos_left n (Nat.pow_pos (n := cs.length) (show 0 < 10 by decide))
  omega

/-- Digits are left over only where 64 bits do not hold all of them. -/
theorem appendDigits_of_lt {cs : List Char} {n : Nat} (h : Nat.ofDigitChars 10 cs n < 2 ^ 64) :
    appendDigits n cs = (Nat.ofDigitChars 10 cs n, []) := by
  induction cs generalizing n with
  | nil => rfl
  | cons c cs ih =>
    rw [ofDigitChars_cons] at h ⊢
    rw [appendDigits, if_pos (Nat.lt_of_le_of_lt (le_ofDigitChars cs _) h)]
    exact ih h

theorem eq_zero_of_head?_toDigits {n : Nat} (h : (Nat.toDigits 10 n).head? = some '0') :
    n = 0 := by
  induction n using Nat.strongRecOn with
  | ind n ih =>
    by_cases hn : n < 10
    · have hdigit : ∀ n < 10, (Nat.toDigits 10 n).head? = some '0' → n = 0 := by decide
      exact hdigit n hn h
    · rw [Nat.toDigits_of_base_le (by decide) (Nat.le_of_not_lt hn),
        List.head?_append_of_ne_nil _ Nat.toDigits_ne_nil] at h
      have := ih (n / 10) (by omega) h
      omega

/-- The digits of a number are a whole numeral. -/
theorem numeral?_of_digits {n : Nat} (hn : n < 2 ^ 64) :
    numeral? (Nat.toDigits 10 n) = some (ofInteger false n) ∧
      numeral? ('-' :: Nat.toDigits 10 n) = some (ofInteger true n) := by
  have hdigit : ∀ c ∈ Nat.toDigits 10 n, c.isDigit = true := fun c =>
    Nat.isDigit_of_mem_toDigits (by decide) (by decide)
  have htake : (Nat.toDigits 10 n).takeWhile Char.isDigit = Nat.toDigits 10 n :=
    List.takeWhile_eq_self_iff.2 hdigit
  have hdrop : (Nat.toDigits 10 n).dropWhile Char.isDigit = [] := List.dropWhile_eq_nil_iff.2 hdigit
  have hempty : (Nat.toDigits 10 n).isEmpty = false :=
    List.isEmpty_eq_false_iff.2 Nat.toDigits_ne_nil
  have hzero : ¬((Nat.toDigits 10 n).head? = some '0' ∧ (Nat.toDigits 10 n).length ≠ 1) := by
    rintro ⟨h0, hl⟩
    rw [eq_zero_of_head?_toDigits h0] at hl
    exact hl rfl
  have hvalue (negative : Bool) : ofDigits negative (Nat.toDigits 10 n) [] none =
      ofInteger negative n := by
    have happend : appendDigits 0 (Nat.toDigits 10 n) = _ :=
      appendDigits_of_lt (by rwa [Nat.ofDigitChars_ten_toDigits])
    rw [Nat.ofDigitChars_ten_toDigits] at happend
    simp [ofDigits, happend]
  have hminus : ∀ rest, Nat.toDigits 10 n ≠ '-' :: rest := by
    intro rest h
    have := hdigit '-' (h ▸ List.mem_cons_self ..)
    revert this
    decide
  constructor
  · unfold numeral?
    split
    rename_i negative cs heq
    split at heq
    · rename_i rest hcs
      exact absurd hcs (hminus rest)
    · cases heq
      simp [htake, hdrop, hempty, hzero, hvalue, exponent?]
  · simp [numeral?, htake, hdrop, hempty, hzero, hvalue, exponent?]

theorem numeral?_renderInt {n : Int} (h : -2 ^ 63 ≤ n ∧ n < 2 ^ 64) :
    numeral? (renderInt n) = some (.int n) := by
  obtain ⟨hpos, hneg⟩ := numeral?_of_digits (n := n.natAbs) (by omega)
  unfold renderInt
  split
  · rw [hneg, ofInteger]
    have hn : ¬(n.natAbs = 0 || 2 ^ 63 < n.natAbs) = true := by
      simp only [Bool.or_eq_true, decide_eq_true_eq]
      omega
    simp only [Bool.not_true, Bool.false_eq_true, ↓reduceIte, hn, Option.some.injEq,
      Json.int.injEq]
    omega
  · rw [hpos, ofInteger]
    simp only [Bool.not_false, ↓reduceIte, Option.some.injEq, Json.int.injEq]
    omega

/-! ## Texts -/

/-- What the scanner keeps of a character that was printed. -/
def pieceOf (c : Char) : Piece :=
  if c.toNat < 32 ∧ c ≠ '\n' ∧ c ≠ '\t' ∧ c ≠ '\r' ∧ c.toNat ≠ 8 ∧ c.toNat ≠ 12 then .unit c.toNat
  else .char c

theorem spell?_unit {n : Nat} (hn : n < 0xd800) (before : List Piece) (cs : List Char) :
    spell? (.unit n :: before) cs = spell? before (Char.ofNat n :: cs) := by
  have hhigh : isHigh n = false := by
    simp only [isHigh, Bool.and_eq_false_iff, decide_eq_false_iff_not]
    omega
  have hlow : isLow n = false := by
    simp only [isLow, Bool.and_eq_false_iff, decide_eq_false_iff_not]
    omega
  cases before with
  | nil => simp [spell?, hhigh, hlow]
  | cons piece before => cases piece <;> simp [spell?, hhigh, hlow]

theorem spell?_pieceOf (c : Char) (before : List Piece) (cs : List Char) :
    spell? (pieceOf c :: before) cs = spell? before (c :: cs) := by
  unfold pieceOf
  split
  · rw [spell?_unit (by omega), Char.ofNat_toNat]
  · rw [spell?]

theorem textOf?_pieces (s : String) : textOf? (s.toList.map pieceOf).reverse = some s := by
  have hspell (cs : List Char) (before : List Piece) (rest : List Char) :
      spell? ((cs.map pieceOf).reverse ++ before) rest = spell? before (cs ++ rest) := by
    induction cs generalizing before with
    | nil => rfl
    | cons c cs ih =>
      rw [List.map_cons, List.reverse_cons, List.append_assoc, List.singleton_append, ih,
        spell?_pieceOf, List.cons_append]
  have := hspell s.toList [] []
  rw [List.append_nil, List.append_nil] at this
  rw [textOf?, this, spell?, Option.map_some, String.ofList_toList]

theorem scan_hex {a b c d : Char} {w x y z : Nat} (ha : hexDigit? a = some w)
    (hb : hexDigit? b = some x) (hc : hexDigit? c = some y) (hd : hexDigit? d = some z)
    (tokens : List Token) (pieces : List Piece) :
    [a, b, c, d].foldlM Scanner.step ⟨tokens, .hex pieces []⟩ =
      some ⟨tokens, .text (.unit (16 * (16 * (16 * w + x) + y) + z) :: pieces)⟩ := by
  simp [Scanner.step, ha, hb, hc, hd]

theorem hex4_control : ∀ n < 32,
    hex4 n = ['0', '0', Nat.digitChar (n / 16), Nat.digitChar (n % 16)] := by
  decide

theorem hexDigit?_digitChar : ∀ n < 16, hexDigit? (Nat.digitChar n) = some n := by
  decide

/-- A control character without an escape of its own is written with its number. -/
theorem scan_control (tokens : List Token) (pieces : List Piece) {n : Nat} (hn : n < 32) :
    (['\\', 'u'] ++ hex4 n).foldlM Scanner.step ⟨tokens, .text pieces⟩ =
      some ⟨tokens, .text (.unit n :: pieces)⟩ := by
  have hz : hexDigit? '0' = some 0 := rfl
  have hscan := scan_hex hz hz (hexDigit?_digitChar (n / 16) (by omega))
    (hexDigit?_digitChar (n % 16) (by omega)) tokens pieces
  have hvalue : 16 * (16 * (16 * 0 + 0) + n / 16) + n % 16 = n := by omega
  rw [hvalue] at hscan
  rw [hex4_control n hn, List.foldlM_append]
  exact hscan

theorem scan_escape (tokens : List Token) (pieces : List Piece) (c : Char) :
    (escape c).foldlM Scanner.step ⟨tokens, .text pieces⟩ =
      some ⟨tokens, .text (pieceOf c :: pieces)⟩ := by
  have hnat {n : Nat} (h : c.toNat = n) : c = Char.ofNat n := by rw [← h, Char.ofNat_toNat]
  unfold escape
  split
  · subst c
    rfl
  split
  · subst c
    rfl
  split
  · subst c
    rfl
  split
  · subst c
    rfl
  split
  · subst c
    rfl
  split
  · rename_i h
    rw [hnat h]
    rfl
  split
  · rename_i h
    rw [hnat h]
    rfl
  rename_i hquote hslash hn ht hr h8 h12
  split
  · rename_i h
    rw [scan_control tokens pieces h, pieceOf, if_pos ⟨h, hn, ht, hr, h8, h12⟩]
  · rename_i h
    simp [Scanner.step, pieceOf, hquote, hslash, h]

/-- The scanner finds the text that was printed. -/
theorem scan_renderText (tokens : List Token) (s : String) :
    (renderText s).foldlM Scanner.step ⟨tokens, .between⟩ =
      some ⟨.text (some s) :: tokens, .between⟩ := by
  have hinside (cs : List Char) (pieces : List Piece) :
      (cs.flatMap escape).foldlM Scanner.step ⟨tokens, .text pieces⟩ =
        some ⟨tokens, .text ((cs.map pieceOf).reverse ++ pieces)⟩ := by
    induction cs generalizing pieces with
    | nil => rfl
    | cons c cs ih =>
      rw [List.flatMap_cons, List.foldlM_append, scan_escape]
      change (cs.flatMap escape).foldlM Scanner.step ⟨tokens, .text (pieceOf c :: pieces)⟩ = _
      rw [ih, List.map_cons, List.reverse_cons, List.append_assoc, List.singleton_append]
  have hopen : ['"'].foldlM Scanner.step ⟨tokens, .between⟩ = some ⟨tokens, .text []⟩ := rfl
  have hclose (pieces : List Piece) : ['"'].foldlM Scanner.step ⟨tokens, .text pieces⟩ =
      some ⟨.text (textOf? pieces) :: tokens, .between⟩ := rfl
  rw [renderText, List.foldlM_append, List.foldlM_append, hopen]
  change ((s.toList.flatMap escape).foldlM Scanner.step ⟨tokens, .text []⟩ >>= _) = _
  rw [hinside, List.append_nil]
  change ['"'].foldlM Scanner.step ⟨tokens, .text (s.toList.map pieceOf).reverse⟩ = _
  rw [hclose, textOf?_pieces]

/-! ## Tokens -/

mutual

/-- The tokens that are printed for a document. -/
def tokens : Json → List Token
  | .unreadable => [.text none]
  | .null => [.scalar .null]
  | .bool b => [.scalar (.bool b)]
  | .int n => [.scalar (.int n)]
  | .float d => [.scalar (.float d)]
  | .str s => [.text (some s)]
  | .arr [] => [.openBracket, .closeBracket]
  | .arr (x :: xs) => .openBracket :: tokens x ++ tokensItems xs
  | .obj [] => [.openBrace, .closeBrace]
  | .obj ((name, x) :: xs) =>
    .openBrace :: .text (some name) :: .colon :: tokens x ++ tokensFields xs

def tokensItems : List Json → List Token
  | [] => [.closeBracket]
  | x :: xs => .comma :: tokens x ++ tokensItems xs

def tokensFields : List (String × Json) → List Token
  | [] => [.closeBrace]
  | (name, x) :: xs => .comma :: .text (some name) :: .colon :: tokens x ++ tokensFields xs

end

mutual

/-- There are no doubles in the document, no parts without a value, and no numbers that 64 bits do
not hold. -/
def Printable : Json → Prop
  | .unreadable | .float _ => False
  | .null | .bool _ | .str _ => True
  | .int n => -2 ^ 63 ≤ n ∧ n < 2 ^ 64
  | .arr items => PrintableItems items
  | .obj fields => PrintableFields fields

def PrintableItems : List Json → Prop
  | [] => True
  | x :: xs => x.Printable ∧ PrintableItems xs

def PrintableFields : List (String × Json) → Prop
  | [] => True
  | (_, x) :: xs => x.Printable ∧ PrintableFields xs

end

/-- Some characters are read as some tokens, the last of which may still be going on. -/
def Reads (cs : List Char) (ts : List Token) : Prop :=
  ∀ before, ∃ s, cs.foldlM Scanner.step ⟨before, .between⟩ = some s ∧
    s.flush = some ⟨ts.reverse ++ before, .between⟩

/-- Some characters are read as some tokens, and the last one has ended. -/
def Scans (cs : List Char) (ts : List Token) : Prop :=
  ∀ before, cs.foldlM Scanner.step ⟨before, .between⟩ = some ⟨ts.reverse ++ before, .between⟩

section
variable {cs cs' : List Char} {ts ts' : List Token}

theorem Scans.reads (h : Scans cs ts) : Reads cs ts := fun before => ⟨_, h before, rfl⟩

theorem Scans.append (h : Scans cs ts) (h' : Scans cs' ts') : Scans (cs ++ cs') (ts ++ ts') := by
  intro before
  rw [List.foldlM_append, h before, List.reverse_append, List.append_assoc]
  exact h' _

theorem Scans.append_reads (h : Scans cs ts) (h' : Reads cs' ts') :
    Reads (cs ++ cs') (ts ++ ts') := by
  intro before
  rw [List.foldlM_append, h before, List.reverse_append, List.append_assoc]
  exact h' _

/-- A character that is no part of a number or a word ends one. -/
theorem step_of_flush {s : Scanner} {c : Char} (h : s.flush = some ⟨ts, .between⟩)
    (hn : Scanner.isNumberChar c = false) (hl : c.isLower = false) :
    s.step c = Scanner.start ts c := by
  obtain ⟨tokens, mode⟩ := s
  cases mode with
  | between =>
    cases h
    rfl
  | number cs =>
    simp only [Scanner.step, hn, Bool.false_eq_true, ↓reduceIte, h, Option.bind_some]
  | word cs => simp only [Scanner.step, hl, Bool.false_eq_true, ↓reduceIte, h, Option.bind_some]
  | text | escape | hex => cases h

theorem Reads.delimited (h : Reads cs ts) {c : Char} {t : Token}
    (hn : Scanner.isNumberChar c = false) (hl : c.isLower = false)
    (ht : ∀ before, Scanner.start before c = some ⟨t :: before, .between⟩) :
    Scans (cs ++ [c]) (ts ++ [t]) := by
  intro before
  obtain ⟨s, hs, hflush⟩ := h before
  rw [List.foldlM_append, hs, List.reverse_append]
  change (s.step c >>= pure) = _
  rw [step_of_flush hflush hn hl, ht]
  rfl

end

theorem scan_digits {cs : List Char} (h : ∀ c ∈ cs, c.isDigit = true) (tokens : List Token)
    (read : List Char) :
    cs.foldlM Scanner.step ⟨tokens, .number read⟩ =
      some ⟨tokens, .number (cs.reverse ++ read)⟩ := by
  induction cs generalizing read with
  | nil => rfl
  | cons c cs ih =>
    obtain ⟨hc, hcs⟩ := List.forall_mem_cons.1 h
    have hstep : Scanner.step ⟨tokens, .number read⟩ c = some ⟨tokens, .number (c :: read)⟩ := by
      simp [Scanner.step, Scanner.isNumberChar, hc]
    rw [List.foldlM_cons, hstep, List.reverse_cons, List.append_assoc, List.singleton_append]
    exact ih hcs _

theorem start_digit {c : Char} (h : c.isDigit = true ∨ c = '-') (tokens : List Token) :
    Scanner.start tokens c = some ⟨tokens, .number [c]⟩ := by
  unfold Scanner.start
  split
  case h_8 =>
    have hblank : ¬(c = ' ' ∨ c = '\n' ∨ c = '\t' ∨ c = '\r') := by
      rintro (rfl | rfl | rfl | rfl) <;> revert h <;> decide
    simp_all
  all_goals exact absurd h (by decide)

/-- A number is read up to where it ends. -/
theorem reads_renderInt {n : Int} (h : -2 ^ 63 ≤ n ∧ n < 2 ^ 64) :
    Reads (renderInt n) [.scalar (.int n)] := by
  have hdigit : ∀ c ∈ Nat.toDigits 10 n.natAbs, c.isDigit = true := fun c =>
    Nat.isDigit_of_mem_toDigits (by decide) (by decide)
  obtain ⟨c, cs, hcs, hc, hrest⟩ : ∃ c cs, renderInt n = c :: cs ∧
      (c.isDigit = true ∨ c = '-') ∧ ∀ d ∈ cs, d.isDigit = true := by
    unfold renderInt
    split
    · exact ⟨'-', _, rfl, .inr rfl, hdigit⟩
    · obtain ⟨c, cs, hcs⟩ := List.exists_cons_of_ne_nil (Nat.toDigits_ne_nil (b := 10))
      rw [hcs] at hdigit ⊢
      obtain ⟨hc, hrest⟩ := List.forall_mem_cons.1 hdigit
      exact ⟨c, cs, rfl, .inl hc, hrest⟩
  intro before
  refine ⟨⟨before, .number (renderInt n).reverse⟩, ?_, ?_⟩
  · rw [hcs, List.foldlM_cons, Scanner.step, start_digit hc, List.reverse_cons]
    exact scan_digits hrest before [c]
  · simp only [Scanner.flush, List.reverse_reverse, numeral?_renderInt h, Option.map_some]
    rfl

theorem reads_word {cs : List Char} {j : Json}
    (h : ∀ before, cs.foldlM Scanner.step ⟨before, .between⟩ = some ⟨before, .word cs.reverse⟩)
    (hj : word? cs = some j) : Reads cs [.scalar j] := by
  refine fun before => ⟨_, h before, ?_⟩
  simp only [Scanner.flush, List.reverse_reverse, hj, Option.map_some]
  rfl

/-- Items and fields begin with a character that ends whatever is before them. -/
theorem Reads.comma {cs : List Char} {ts : List Token} (h : Reads cs ts) :
    Scans (cs ++ [',']) (ts ++ [.comma]) := h.delimited rfl rfl fun _ => rfl

theorem scans_char {c : Char} {t : Token}
    (h : ∀ before, Scanner.start before c = some ⟨t :: before, .between⟩) : Scans [c] [t] := by
  intro before
  change (Scanner.start before c >>= pure) = _
  rw [h]
  rfl

theorem scans_text (s : String) : Scans (renderText s) [.text (some s)] :=
  fun before => scan_renderText before s

mutual

/-- What is printed of a document is read as its tokens. -/
theorem reads_render : ∀ j : Json, j.Printable → Reads j.render j.tokens
  | .unreadable, h | .float _, h => h.elim
  | .null, _ => reads_word (fun _ => rfl) rfl
  | .bool true, _ => reads_word (fun _ => rfl) rfl
  | .bool false, _ => reads_word (fun _ => rfl) rfl
  | .int n, h => reads_renderInt h
  | .str s, _ => (scans_text s).reads
  | .arr [], _ => fun _ => ⟨_, rfl, rfl⟩
  | .arr (x :: xs), h => by
    have hopen : Scans ['['] [.openBracket] := scans_char fun _ => rfl
    exact (scans_renderItems xs h.2 (hopen.append_reads (reads_render x h.1))).reads
  | .obj [], _ => fun _ => ⟨_, rfl, rfl⟩
  | .obj ((name, x) :: xs), h => by
    have hopen : Scans ['\x7b'] [.openBrace] := scans_char fun _ => rfl
    have hcolon : Scans [':'] [.colon] := scans_char fun _ => rfl
    have hx := (hopen.append ((scans_text name).append hcolon)).append_reads (reads_render x h.1)
    have := (scans_renderFields xs h.2 hx).reads
    simpa [render, tokens] using this

theorem scans_renderItems : ∀ (xs : List Json), PrintableItems xs → ∀ {cs : List Char}
    {ts : List Token}, Reads cs ts → Scans (cs ++ renderItems xs) (ts ++ tokensItems xs)
  | [], _, _, _, hcs => hcs.delimited rfl rfl fun _ => rfl
  | x :: xs, h, _, _, hcs => by
    have := scans_renderItems xs h.2 (hcs.comma.append_reads (reads_render x h.1))
    simpa [renderItems, tokensItems] using this

theorem scans_renderFields : ∀ (xs : List (String × Json)), PrintableFields xs →
    ∀ {cs : List Char} {ts : List Token}, Reads cs ts →
      Scans (cs ++ renderFields xs) (ts ++ tokensFields xs)
  | [], _, _, _, hcs => hcs.delimited rfl rfl fun _ => rfl
  | (name, x) :: xs, h, _, _, hcs => by
    have hcolon : Scans [':'] [.colon] := scans_char fun _ => rfl
    have hx := (hcs.comma.append ((scans_text name).append hcolon)).append_reads
      (reads_render x h.1)
    have := scans_renderFields xs h.2 hx
    simpa [renderFields, tokensFields] using this

end

theorem tokens?_render {j : Json} (h : j.Printable) :
    tokens? (j.render.map some) = some j.tokens := by
  obtain ⟨s, hs, hflush⟩ := reads_render j h []
  have hfold : (j.render.map some).foldlM (fun (s : Scanner) c => c.elim s.stepMalformed s.step)
      ⟨[], .between⟩ = some s := by
    rw [List.foldlM_map]
    exact hs
  rw [tokens?, hfold]
  simp [hflush]

/-! ## The document -/

theorem ofParts_named (fields : List (String × Json)) :
    ofParts (fields.map fun f => (some f.1, f.2)).reverse = .obj fields := by
  have hnames : (fields.map fun f => ((some f.1 : Option String), f.2)).mapM
      (fun f => f.1.map (·, f.2)) = some fields := by
    induction fields with
    | nil => rfl
    | cons f rest ih =>
      rw [List.map_cons, List.mapM_cons, ih]
      rfl
  rw [ofParts, List.reverse_reverse]
  split
  · rename_i hnone
    rw [hnames] at hnone
    cases hnone
  · rename_i named hsome
    rw [hnames] at hsome
    cases hsome
    rfl

/-- The first item of an array is read like any value. -/
theorem parse_firstItem (j : Json) (outer : List Frame) :
    j.tokens.foldlM Expecting.step (.firstItem outer) =
      j.tokens.foldlM Expecting.step (.value (.array [] :: outer)) := by
  cases j with
  | arr items => cases items <;> rfl
  | obj fields => cases fields <;> rfl
  | _ => rfl

mutual

/-- The tokens of a document are parsed to the document. -/
theorem parse_tokens : ∀ (j : Json) (outer : List Frame),
    j.tokens.foldlM Expecting.step (.value outer) = some (Expecting.complete j outer)
  | .unreadable, _ | .null, _ | .bool _, _ | .int _, _ | .float _, _ | .str _, _ => rfl
  | .arr [], _ | .obj [], _ => rfl
  | .arr (x :: xs), outer => by
    rw [tokens, List.foldlM_append]
    change (x.tokens.foldlM Expecting.step (.firstItem outer) >>= _) = _
    rw [parse_firstItem, parse_tokens x]
    exact parse_tokensItems xs [x] outer
  | .obj ((name, x) :: xs), outer => by
    rw [tokens, List.foldlM_append]
    change (x.tokens.foldlM Expecting.step (.value (.object [] (some name) :: outer)) >>= _) = _
    rw [parse_tokens x]
    exact parse_tokensFields xs [(name, x)] outer

theorem parse_tokensItems : ∀ (xs before : List Json) (outer : List Frame),
    (tokensItems xs).foldlM Expecting.step (.moreItems before.reverse outer) =
      some (Expecting.complete (.arr (before ++ xs)) outer)
  | [], before, outer => by
    rw [List.append_nil]
    change some (Expecting.complete (.arr before.reverse.reverse) outer) = _
    rw [List.reverse_reverse]
  | x :: xs, before, outer => by
    rw [tokensItems, List.foldlM_append]
    change (x.tokens.foldlM Expecting.step (.value (.array before.reverse :: outer)) >>= _) = _
    rw [parse_tokens x]
    have := parse_tokensItems xs (before ++ [x]) outer
    rw [List.reverse_append, List.append_assoc] at this
    exact this

theorem parse_tokensFields : ∀ (xs before : List (String × Json)) (outer : List Frame),
    (tokensFields xs).foldlM Expecting.step
        (.moreFields (before.map fun f => (some f.1, f.2)).reverse outer) =
      some (Expecting.complete (.obj (before ++ xs)) outer)
  | [], before, outer => by
    rw [List.append_nil, ← ofParts_named before]
    rfl
  | (name, x) :: xs, before, outer => by
    rw [tokensFields, List.foldlM_append]
    change (x.tokens.foldlM Expecting.step (.value
      (.object (before.map fun f => (some f.1, f.2)).reverse (some name) :: outer)) >>= _) = _
    rw [parse_tokens x]
    have := parse_tokensFields xs (before ++ [(name, x)]) outer
    rw [List.map_append, List.reverse_append, List.append_assoc] at this
    exact this

end

theorem ofTokens?_tokens (j : Json) : ofTokens? j.tokens = some j := by
  rw [ofTokens?, parse_tokens]
  rfl

/-- A document can be read back from its text. -/
theorem parse?_text {j : Json} (h : j.Printable) : parse? j.text = some j := by
  rw [parse?, text, String.toList_ofList, tokens?_render h, Option.bind_some, ofTokens?_tokens]

/-- A document can be read back from the bytes of its text. -/
theorem ofBytes?_text {j : Json} (h : j.Printable) : ofBytes? (textBytes j.text) = some j := by
  rw [ofBytes?, Text.charsOfBytes_textBytes, text, String.toList_ofList, tokens?_render h,
    Option.bind_some, ofTokens?_tokens]

end Json
end ShardQuery
