import LazyApl.Text.Printable
/-!
# Quoted text

Text in quotes: single quotes, or double ones if the text has single quotes and no double ones. A
backslash goes before the quote in use and before itself; line ends, tabs and characters that are
not printable are written as escapes.
-/

namespace LazyApl
namespace Quoted

def singleQuote : Char := Char.ofNat 39

def doubleQuote : Char := Char.ofNat 34

def backslash : Char := Char.ofNat 92

/-- A number in hexadecimal digits, at least as many as the width. -/
def hex (width n : Nat) : String :=
  let ds := Nat.toDigits 16 n
  String.ofList (List.replicate (width - ds.length) '0' ++ ds)

def slashed (letter : Char) : String := String.ofList [backslash, letter]

/-- A character by its code point, in as many digits as its range needs. -/
def byNumber (c : Char) : String :=
  if c.toNat < 256 then slashed 'x' ++ hex 2 c.toNat
  else if c.toNat < 65536 then slashed 'u' ++ hex 4 c.toNat
  else slashed 'U' ++ hex 8 c.toNat

def escape (quote c : Char) : String :=
  if c = quote ∨ c = backslash then String.ofList [backslash, c]
  else if c.toNat = 10 then slashed 'n'
  else if c.toNat = 13 then slashed 'r'
  else if c.toNat = 9 then slashed 't'
  else if Printable.isPrintable c then String.ofList [c]
  else byNumber c

def quoteFor (cs : List Char) : Char :=
  if cs.contains singleQuote && !cs.contains doubleQuote then doubleQuote else singleQuote

def text (s : String) : String :=
  let cs := s.toList
  let q := quoteFor cs
  String.ofList [q] ++ String.join (cs.map (escape q)) ++ String.ofList [q]

end Quoted
end LazyApl
