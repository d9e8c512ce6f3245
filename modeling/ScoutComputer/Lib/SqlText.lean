import Mathlib.Data.List.Basic

/-!
# The lexical rules of MySQL

How the server cuts the text of a statement into tokens, in the default SQL mode:
string literals between single or double quotes with backslash escapes and
doubled quotes, names between backticks, the three kinds of comments, numbers with a
point or an exponent, words (which here include integers) and single-character
punctuation.

A version comment (`/*!` or `/*!` and the five or six digits of a version) is code for a
server of that version or a later one: its opening and its closing are tokens of their
own, and what stands between them is read like the rest. So the reader has a state,
whether it is inside such a comment, and a text that ends there is an error.

`Lexes version s ts` says that a server of that version reads `s` as `ts`. Every token is
kept with the text it was read from, so that one can ask not only which tokens a statement
has but where each of them comes from, and what stands between two of them.
-/

namespace SqlText

abbrev backslash : UInt8 := 92
abbrev quote : UInt8 := 39
abbrev dquote : UInt8 := 34
abbrev backtick : UInt8 := 96
abbrev comma : UInt8 := 44
abbrev newline : UInt8 := 10

inductive Token where
  | space
  | comment
  /-- The start of a version comment whose text is code for this server. -/
  | opening
  /-- The end of one. -/
  | closing
  | str (value : List UInt8)
  | name (value : List UInt8)
  | word (text : List UInt8)
  /-- A number with a point or an exponent. -/
  | number (text : List UInt8)
  | punct (c : UInt8)
  deriving DecidableEq

/-- A token and the text it was read from. -/
abbrev Lexeme : Type := Token × List UInt8

def isSpace (c : UInt8) : Bool := c = 32 || (9 ≤ c && c ≤ 13)

def isDigit (c : UInt8) : Bool := 48 ≤ c && c ≤ 57

def isWord (c : UInt8) : Bool :=
  (48 ≤ c && c ≤ 57) || (65 ≤ c && c ≤ 90) || (97 ≤ c && c ≤ 122) || c = 95 || c = 36 || 128 ≤ c

/-- A character that makes `--` start a comment. -/
def isBlank (c : UInt8) : Bool := c ≤ 32 || c = 127

/-- What a backslash and the character after it stand for. -/
def unescape (c : UInt8) : List UInt8 :=
  if c = 48 then [0]            -- \0
  else if c = 98 then [8]       -- \b
  else if c = 110 then [10]     -- \n
  else if c = 114 then [13]     -- \r
  else if c = 116 then [9]      -- \t
  else if c = 90 then [26]      -- \Z
  else if c = 37 ∨ c = 95 then [backslash, c]
  else [c]

/-- Whether `c` starts an escape sequence between two `q`s. -/
def isEscape (q c : UInt8) : Bool := c = backslash && q != backtick

/--
The rest of a string literal or of a quoted name opened by `q`: its value and what
follows it.
-/
def scanStr (q : UInt8) : List UInt8 → Option (List UInt8 × List UInt8)
  | [] => none
  | [c] => if c = q then some ([], []) else none
  | c :: d :: s =>
      if isEscape q c then (scanStr q s).map fun x => (unescape d ++ x.1, x.2)
      else if c = q then
        if d = q then (scanStr q s).map fun x => (q :: x.1, x.2) else some ([], d :: s)
      else (scanStr q (d :: s)).map fun x => (c :: x.1, x.2)

/-- What follows the end of a block comment. -/
def scanBlock : List UInt8 → Option (List UInt8)
  | [] => none
  | c :: s => if c = 42 ∧ s.head? = some 47 then some s.tail else scanBlock s

/-- What follows a comment that ends with the line. -/
def afterLine (s : List UInt8) : List UInt8 := s.dropWhile (· ≠ newline)

/-- Whether the text after a first dash makes it the start of a comment. -/
def dashes : List UInt8 → Bool
  | 45 :: c :: _ => isBlank c
  | [45] => true
  | _ => false

/-! ## Words and numbers -/

def afterSign : List UInt8 → List UInt8
  | [] => []
  | c :: s => if c = 43 ∨ c = 45 then s else c :: s

/-- What follows the exponent at the start of a text: a sign may stand in it, a digit must. -/
def afterExponent : List UInt8 → Option (List UInt8)
  | [] => none
  | c :: s =>
      if (c = 101 ∨ c = 69) ∧ (afterSign s).head?.any isDigit then
        some ((afterSign s).dropWhile isDigit)
      else none

/-- What follows the digits after a point and the exponent after them. -/
def afterPoint (s : List UInt8) : List UInt8 :=
  (afterExponent (s.dropWhile isDigit)).getD (s.dropWhile isDigit)

/-- What follows a number of which `s` is the rest after its first digits. -/
def afterNumber : List UInt8 → Option (List UInt8)
  | [] => none
  | c :: s => if c = 46 then some (afterPoint s) else afterExponent (c :: s)

/--
The word or the number that starts with `c`. A point in front of digits is punctuation
here: after a name (`a.5`) it qualifies the name and starts no number.
-/
def scanWord (c : UInt8) (s : List UInt8) : Token × List UInt8 :=
  match if isDigit c then afterNumber (s.dropWhile isDigit) else none with
  | some rest => (.number (c :: s.take (s.length - rest.length)), rest)
  | none => (.word (c :: s.takeWhile isWord), s.dropWhile isWord)

/-! ## Comments -/

/--
What follows a version comment that is not read. In it a plain comment may stand, which
`inner` says is open.
-/
def scanUnread (inner : Bool) : List UInt8 → Option (List UInt8)
  | [] => none
  | [_] => none
  | c :: d :: s =>
      if c = 47 ∧ d = 42 ∧ inner = false then scanUnread true s
      else if c = 42 ∧ d = 47 then if inner then scanUnread false s else some s
      else scanUnread inner (d :: s)

/-- The digits of the version after `/*!`, if there are five or six. -/
def versionDigits (s : List UInt8) : List UInt8 :=
  if 5 ≤ (s.takeWhile isDigit).length then (s.takeWhile isDigit).take 6 else []

/-- The number that some digits write. -/
def digitsValue (ds : List UInt8) : Nat := ds.foldl (fun n c => 10 * n + (c.toNat - 48)) 0

/-- The comment or the opening after `/*`, for a server of some version. -/
def scanComment (version : Nat) (s : List UInt8) : Option (Token × List UInt8) :=
  if s.head? = some 33 then
    if digitsValue (versionDigits s.tail) ≤ version then
      some (.opening, s.tail.drop (versionDigits s.tail).length)
    else (scanUnread false s.tail).map fun x => (.comment, x)
  else (scanBlock s).map fun x => (.comment, x)

/-! ## Tokens -/

def scanQuoted (q : UInt8) (token : List UInt8 → Token) (s : List UInt8) :
    Option (Token × List UInt8) := (scanStr q s).map fun x => (token x.1, x.2)

/-- The first token of a text, read inside a version comment or outside, and what follows it. -/
def scan (version : Nat) (inside : Bool) : List UInt8 → Option (Token × List UInt8)
  | [] => none
  | c :: s =>
      if isSpace c then some (.space, s)
      else if c = quote ∨ c = dquote then scanQuoted c .str s
      else if c = backtick then scanQuoted c .name s
      else if isWord c then some (scanWord c s)
      else if c = 35 then some (.comment, afterLine s)
      else if c = 45 ∧ dashes s then some (.comment, afterLine s)
      else if c = 47 ∧ s.head? = some 42 then scanComment version s.tail
      else if inside ∧ c = 42 ∧ s.head? = some 47 then some (.closing, s.tail)
      else some (.punct c, s)

/-- Whether the text after a token lies inside a version comment. -/
def Token.inside : Token → Bool → Bool
  | .opening, _ => true
  | .closing, _ => false
  | _, inside => inside

/--
From inside a version comment or from outside, `s` reads as the tokens `ts`, and the last
index says where the text ends.
-/
inductive Reads (version : Nat) : Bool → List UInt8 → List Lexeme → Bool → Prop where
  | nil {b : Bool} : Reads version b [] [] b
  | cons {b c : Bool} {tok : Token} {raw rest : List UInt8} {ts : List Lexeme} :
      scan version b (raw ++ rest) = some (tok, rest) →
      Reads version (tok.inside b) rest ts c →
      Reads version b (raw ++ rest) ((tok, raw) :: ts) c

/-- A whole statement reads as the tokens `ts`. -/
abbrev Lexes (version : Nat) (s : List UInt8) (ts : List Lexeme) : Prop :=
  Reads version false s ts false

/-- The text a list of tokens was read from. -/
def rawText (ts : List Lexeme) : List UInt8 := ts.flatMap Prod.snd

/-- Whether a token is there for the reader of the text alone. -/
def Token.isBlank : Token → Bool
  | .space | .comment => true
  | _ => false

/-- The tokens between spaces and comments. -/
def tokens (ts : List Lexeme) : List Token := (ts.map Prod.fst).filter fun t => !t.isBlank

end SqlText
