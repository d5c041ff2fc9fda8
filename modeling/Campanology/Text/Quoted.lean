import Campanology.Text.Printable

/-!
# Quoted text

Messages show a piece of text between quotes, so that blanks and invisible characters can be seen.
The quote is `'`, unless the text holds `'` and no `"`, and then it is `"`. The quote in use and
the backslash are written after a backslash; tab, line feed and carriage return as `\t`, `\n` and
`\r`; every other character which is not printable by its code in hexadecimal, after `\x`, `\u` or
`\U` as two, four or eight digits suffice. Everything else stands for itself.
-/

namespace Campanology.Text

/-! ## Hexadecimal codes -/

/-- The digit for a value below 16, in small letters. -/
def hexDigit (d : Nat) : Char :=
  if d < 10 then Char.ofNat (48 + d) else Char.ofNat (87 + d)

/-- The last `width` hexadecimal digits of a number. -/
def hex : (width : Nat) → (n : Nat) → List Char
  | 0, _ => []
  | width + 1, n => hex width (n / 16) ++ [hexDigit (n % 16)]

/-! ## Quoting -/

/-- The quote put around a text. -/
def quoteFor (s : List Char) : Char :=
  if '\'' ∈ s ∧ '"' ∉ s then '"' else '\''

/-- How one character is written between quotes `q`. -/
def escape (q c : Char) : List Char :=
  if c = q ∨ c = '\\' then ['\\', c]
  else if c = '\t' then ['\\', 't']
  else if c = '\n' then ['\\', 'n']
  else if c = '\r' then ['\\', 'r']
  else if Printable.isPrintable c then [c]
  else if c.toNat ≤ 0xff then '\\' :: 'x' :: hex 2 c.toNat
  else if c.toNat ≤ 0xffff then '\\' :: 'u' :: hex 4 c.toNat
  else '\\' :: 'U' :: hex 8 c.toNat

/-- A text between quotes. -/
def quoted (s : String) : String :=
  let q := quoteFor s.toList
  String.ofList (q :: s.toList.flatMap (escape q) ++ [q])

/-- One character between quotes. -/
def quotedChar (c : Char) : String :=
  quoted (String.singleton c)

/-! ## Tuples of numbers -/

/-- Numbers between parentheses; a single one is followed by a comma. -/
def tuple (ns : List Int) : String :=
  match ns with
  | [n] => "(" ++ toString n ++ ",)"
  | ns => "(" ++ ", ".intercalate (ns.map toString) ++ ")"

end Campanology.Text
