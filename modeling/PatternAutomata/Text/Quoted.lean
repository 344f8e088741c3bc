import PatternAutomata.Text.Unprintable
/-!
# Quoted text

Strings are quoted between double quotes and single characters between single ones. Inside, the
backslash and the quote in use are preceded by a backslash, line ends, tabs and the null character
are written by a letter or digit, and what has no glyph is written by its number.
-/
namespace PatternAutomata

/-- The number of `c` in hexadecimal digits, between braces. -/
def numbered (c : Char) : List Char :=
  '\\' :: 'u' :: '\x7b' :: (Nat.toDigits 16 c.toNat ++ ['\x7d'])

/-- `c` as it stands between two marks `quote`. -/
def escape (quote c : Char) : List Char :=
  if c = quote ∨ c = '\\' then ['\\', c]
  else if c = '\x00' then ['\\', '0']
  else if c = '\t' then ['\\', 't']
  else if c = '\r' then ['\\', 'r']
  else if c = '\n' then ['\\', 'n']
  else if isUnprintable c then numbered c
  else [c]

/-- The characters `cs` between two marks `quote`. -/
def enclose (quote : Char) (cs : List Char) : String :=
  .ofList (quote :: (cs.flatMap (escape quote) ++ [quote]))

def quoteWord (w : List Char) : String := enclose '"' w

def quoteChar (c : Char) : String := enclose '\'' [c]

end PatternAutomata
