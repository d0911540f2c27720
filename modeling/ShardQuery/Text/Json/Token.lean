import ShardQuery.Text.Json.Number

/-!
The tokens of a JSON text. The scanner reads one character at a time and keeps what it has read of
the current token in its mode. It looks for the end of a text only; whether the text is Unicode is
told by `spell?`, so that a reader that passes a text over need not mind.
-/

namespace ShardQuery.Json

inductive Token where
  | openBrace
  | closeBrace
  | openBracket
  | closeBracket
  | comma
  | colon
  /-- A text, or `none` if it is not Unicode. -/
  | text (s : Option String)
  /-- A number or one of the three words. -/
  | scalar (j : Json)
  deriving Inhabited, Repr

/-- One of the three words. -/
def word? (cs : List Char) : Option Json :=
  if cs = "null".toList then some .null
  else if cs = "true".toList then some (.bool true)
  else if cs = "false".toList then some (.bool false)
  else none

def hexDigit? (c : Char) : Option Nat :=
  if '0' ≤ c && c ≤ '9' then some (c.toNat - 48)
  else if 'a' ≤ c && c ≤ 'f' then some (c.toNat - 87)
  else if 'A' ≤ c && c ≤ 'F' then some (c.toNat - 55)
  else none

/-- The character that a one-letter escape stands for. -/
def escaped? (c : Char) : Option Char :=
  match c with
  | '"' => some '"'
  | '\\' => some '\\'
  | '/' => some '/'
  | 'b' => some (Char.ofNat 8)
  | 'f' => some (Char.ofNat 12)
  | 'n' => some '\n'
  | 'r' => some '\r'
  | 't' => some '\t'
  | _ => none

/-- A part of a text. -/
inductive Piece where
  | char (c : Char)
  /-- The code unit that four hexadecimal digits stand for. -/
  | unit (n : Nat)
  /-- A byte that takes no part in a character. -/
  | malformed
  deriving Inhabited, Repr

/-- The first half of a pair of code units. -/
def isHigh (n : Nat) : Bool := 0xd800 ≤ n && n < 0xdc00

/-- The second half of a pair of code units. -/
def isLow (n : Nat) : Bool := 0xdc00 ≤ n && n < 0xe000

/-- The characters that pieces spell, in front of those after them. The last piece comes first. Both
halves of a pair must be there, and nothing malformed. -/
def spell? : List Piece → List Char → Option (List Char)
  | [], cs => some cs
  | .char c :: before, cs => spell? before (c :: cs)
  | .unit low :: .unit n :: before, cs =>
    if isLow low then
      if isHigh n then
        spell? before (Char.ofNat (0x10000 + (n - 0xd800) * 0x400 + (low - 0xdc00)) :: cs)
      else none
    else if isHigh low then none
    else spell? (.unit n :: before) (Char.ofNat low :: cs)
  | .unit n :: before, cs =>
    if isHigh n || isLow n then none else spell? before (Char.ofNat n :: cs)
  | .malformed :: _, _ => none

/-- The text that pieces spell, the last one first. -/
def textOf? (pieces : List Piece) : Option String := (spell? pieces []).map String.ofList

/-- What the scanner is in the middle of. What was read so far is kept in reverse. -/
inductive Mode where
  | between
  | number (cs : List Char)
  | word (cs : List Char)
  | text (pieces : List Piece)
  /-- After a backslash. -/
  | escape (pieces : List Piece)
  /-- In the hexadecimal digits of an escape. -/
  | hex (pieces : List Piece) (digits : List Nat)
  deriving Inhabited, Repr

/-- The scanner: the tokens read so far, in reverse, and the current token. -/
structure Scanner where
  tokens : List Token
  mode : Mode
  deriving Inhabited, Repr

namespace Scanner

/-- Ends a number or a word. -/
def flush (s : Scanner) : Option Scanner :=
  match s.mode with
  | .between => some s
  | .number cs => (numeral? cs.reverse).map fun j => ⟨.scalar j :: s.tokens, .between⟩
  | .word cs => (word? cs.reverse).map fun j => ⟨.scalar j :: s.tokens, .between⟩
  | _ => none

def isNumberChar (c : Char) : Bool :=
  c.isDigit || c = '-' || c = '+' || c = '.' || c = 'e' || c = 'E'

/-- The first character of a token, or a blank. -/
def start (tokens : List Token) (c : Char) : Option Scanner :=
  match c with
  | '\x7b' => some ⟨.openBrace :: tokens, .between⟩
  | '\x7d' => some ⟨.closeBrace :: tokens, .between⟩
  | '[' => some ⟨.openBracket :: tokens, .between⟩
  | ']' => some ⟨.closeBracket :: tokens, .between⟩
  | ',' => some ⟨.comma :: tokens, .between⟩
  | ':' => some ⟨.colon :: tokens, .between⟩
  | '"' => some ⟨tokens, .text []⟩
  | _ =>
    if c = ' ' || c = '\n' || c = '\t' || c = '\r' then some ⟨tokens, .between⟩
    else if c.isDigit || c = '-' then some ⟨tokens, .number [c]⟩
    else if c.isLower then some ⟨tokens, .word [c]⟩
    else none

/-- Takes in a character. -/
def step (s : Scanner) (c : Char) : Option Scanner :=
  match s.mode with
  | .between => start s.tokens c
  | .number cs =>
    if isNumberChar c then some ⟨s.tokens, .number (c :: cs)⟩
    else s.flush.bind fun t => start t.tokens c
  | .word cs =>
    if c.isLower then some ⟨s.tokens, .word (c :: cs)⟩
    else s.flush.bind fun t => start t.tokens c
  | .text pieces =>
    if c = '"' then some ⟨.text (textOf? pieces) :: s.tokens, .between⟩
    else if c = '\\' then some ⟨s.tokens, .escape pieces⟩
    else if c.toNat < 32 then none
    else some ⟨s.tokens, .text (.char c :: pieces)⟩
  | .escape pieces =>
    if c = 'u' then some ⟨s.tokens, .hex pieces []⟩
    else (escaped? c).map fun e => ⟨s.tokens, .text (.char e :: pieces)⟩
  | .hex pieces digits =>
    (hexDigit? c).map fun d =>
      let digits := digits ++ [d]
      if digits.length < 4 then ⟨s.tokens, .hex pieces digits⟩
      else ⟨s.tokens, .text (.unit (digits.foldl (fun n d => 16 * n + d) 0) :: pieces)⟩

/-- Takes in a byte that takes no part in a character. Only a text can hold one. -/
def stepMalformed (s : Scanner) : Option Scanner :=
  match s.mode with
  | .text pieces => some ⟨s.tokens, .text (.malformed :: pieces)⟩
  | _ => none

end Scanner

/-- The tokens of a text in which some bytes may take no part in a character, unless it holds
something that is no token. -/
def tokens? (cs : List (Option Char)) : Option (List Token) :=
  let scanner := cs.foldlM (fun (s : Scanner) c => c.elim s.stepMalformed s.step) ⟨[], .between⟩
  (scanner.bind Scanner.flush).map fun s => s.tokens.reverse

end ShardQuery.Json
