import ShardQuery.Text.Unseen

/-!
Texts and characters in quotes, as error messages show them.
-/

namespace ShardQuery.Text

/-- A character between quotes. -/
def escape (quote c : Char) : List Char :=
  if c = quote || c = '\\' then ['\\', c]
  else if c = '\t' then ['\\', 't']
  else if c = '\n' then ['\\', 'n']
  else if c = '\r' then ['\\', 'r']
  else if c.toNat = 0 then ['\\', '0']
  else if isUnseen c then "\\u\x7b".toList ++ Nat.toDigits 16 c.toNat ++ "\x7d".toList
  else [c]

def quoteChar (c : Char) : String := String.ofList (['\''] ++ escape '\'' c ++ ['\''])

def quoteText (s : String) : String :=
  String.ofList (['"'] ++ s.toList.flatMap (escape '"') ++ ['"'])

end ShardQuery.Text
