import Mathlib.Data.List.Basic
set_option autoImplicit false

/-!
Regular expressions that repeat single characters only: whether one is found in a text, and the
replacement of every match of a scanner.
-/

namespace Regex

inductive Pattern where
  | one (p : Char → Bool)
  | many (p : Char → Bool)
  /-- The edge of a word of such characters. -/
  | boundary (p : Char → Bool)
  | empty
  | seq (first second : Pattern)
  | either (first second : Pattern)

/-- The rest of a match, from the character before it and the text ahead. -/
abbrev Rest := Option Char → List Char → Bool

def runMany (p : Char → Bool) (rest : Rest) : Option Char → List Char → Bool
  | before,[] => rest before []
  | before,c::text => rest before (c::text) || (p c && runMany p rest (some c) text)

def Pattern.run : Pattern → Rest → Option Char → List Char → Bool
  | .one _,_,_,[] => false
  | .one p,rest,_,c::text => p c && rest (some c) text
  | .many p,rest,before,text => runMany p rest before text
  | .boundary p,rest,before,text => (before.any p != text.head?.any p) && rest before text
  | .empty,rest,before,text => rest before text
  | .seq first second,rest,before,text => first.run (second.run rest) before text
  | .either first second,rest,before,text =>
    first.run rest before text || second.run rest before text

def Pattern.search (pattern : Pattern) : Option Char → List Char → Bool
  | before,[] => pattern.run (fun _ _ => true) before []
  | before,c::text =>
    pattern.run (fun _ _ => true) before (c::text) || pattern.search (some c) text

/-- `pattern.test(text)` -/
def Pattern.test (pattern : Pattern) (text : List Char) : Bool := pattern.search none text

/-- The characters of a literal, compared as `fold` leaves them. -/
def literal (fold : Char → Char) (chars : List Char) : Pattern :=
  chars.foldr (fun c rest => .seq (.one (fun d => fold d = fold c)) rest) .empty

def optional (pattern : Pattern) : Pattern := .either pattern .empty

def sequence (patterns : List Pattern) : Pattern := patterns.foldr .seq .empty

/-- Replace each match of a scanner, which gives the length of the match at the front of a text.
The counter is what is left of the match before. -/
def replaceFrom (scan : List Char → Option Nat) (replacement : List Char) :
    Nat → List Char → List Char
  | _,[] => []
  | skip + 1,_::text => replaceFrom scan replacement skip text
  | 0,c::text =>
    match scan (c::text) with
    | some (length + 1) => replacement ++ replaceFrom scan replacement length text
    | _ => c::replaceFrom scan replacement 0 text

def replaceAll (scan : List Char → Option Nat) (replacement text : List Char) : List Char :=
  replaceFrom scan replacement 0 text

/-- The scanner of a fixed text. -/
def scanText (chars text : List Char) : Option Nat :=
  if chars.isPrefixOf text then some chars.length else none

end Regex
