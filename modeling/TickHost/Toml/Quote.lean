import TickHost.Text.Words

/-!
Text in quotes. A basic text is in double quotes and knows escapes; a literal text is in single
quotes and is taken as it is. Either may be written between triple quotes, where it may run over
several lines, without the line end that follows the opening quotes. A writer takes the first form
that shows the text without escapes, and a basic text where there is none.
-/

namespace TickHost.Toml

/-- What may stand in a comment or a quoted text: blanks, tabs, printing characters. -/
def isShown (c : Char) : Bool :=
  c == '\t' || (0x20 ≤ c.toNat && c.toNat ≤ 0x7e) || 0x80 ≤ c.toNat

def hexValue? (c : Char) : Option Nat :=
  let n := c.toNat
  if 48 ≤ n ∧ n ≤ 57 then some (n - 48)
  else if 65 ≤ n ∧ n ≤ 70 then some (n - 55)
  else if 97 ≤ n ∧ n ≤ 102 then some (n - 87)
  else none

def hexNumber? (digits : List Char) : Option Nat :=
  digits.foldlM (fun n c => (hexValue? c).map (16 * n + ·)) 0

/-- The character of a code point, surrogates excepted. -/
def scalar? (digits : List Char) : Option Char :=
  (hexNumber? digits).bind fun n =>
    if n < 0xd800 ∨ (0xe000 ≤ n ∧ n < 0x110000) then some (Char.ofNat n) else none

/-- What follows a backslash: the character it stands for, and the rest. -/
def escape? : List Char → Option (Char × List Char)
  | 'b' :: rest => some ('\x08', rest)
  | 't' :: rest => some ('\t', rest)
  | 'n' :: rest => some ('\n', rest)
  | 'f' :: rest => some ('\x0c', rest)
  | 'r' :: rest => some ('\r', rest)
  | '"' :: rest => some ('"', rest)
  | '\\' :: rest => some ('\\', rest)
  | 'u' :: a :: b :: c :: d :: rest => (scalar? [a, b, c, d]).map (·, rest)
  | 'U' :: a :: b :: c :: d :: e :: f :: g :: h :: rest =>
      (scalar? [a, b, c, d, e, f, g, h]).map (·, rest)
  | _ => none

theorem escape?_length {text rest : List Char} {c : Char} (h : escape? text = some (c, rest)) :
    rest.length < text.length := by
  unfold escape? at h
  split at h
  case h_8 | h_9 =>
    obtain ⟨_, -, hread⟩ := Option.map_eq_some_iff.mp h
    rw [← (Prod.mk.inj hread).2]
    simp only [List.length_cons]
    omega
  case h_10 => cases h
  all_goals
    rw [← (Prod.mk.inj (Option.some.inj h)).2]
    simp only [List.length_cons]
    omega

def isQuotedSpace (c : Char) : Bool :=
  c == ' ' || c == '\t' || c == '\n' || c == '\r'

/-- Whether a backslash at this point hides a line end: blanks, and then the line end. -/
def hidesLineEnd (text : List Char) : Bool :=
  match text.dropWhile fun c => c == ' ' || c == '\t' with
  | '\n' :: _ | '\r' :: '\n' :: _ => true
  | _ => false

/-- The rest after hidden line ends. -/
def skipHidden : List Char → List Char
  | ' ' :: rest | '\t' :: rest | '\n' :: rest => skipHidden rest
  | '\r' :: '\n' :: rest => skipHidden rest
  | rest => rest

theorem skipHidden_length (text : List Char) : (skipHidden text).length ≤ text.length := by
  fun_induction skipHidden text <;> simp <;> omega

/-- A basic text on one line, after its opening quote. -/
def basicText : List Char → Option (List Char × List Char)
  | [] => none
  | c :: rest =>
      if c = '"' then some ([], rest)
      else if c = '\\' then
        match h : escape? rest with
        | none => none
        | some (escaped, after) =>
            have := escape?_length h
            (basicText after).map fun (text, rest) => (escaped :: text, rest)
      else if isShown c then (basicText rest).map fun (text, rest) => (c :: text, rest)
      else none
termination_by text => text.length

/-- A basic text between triple quotes, after the opening ones. Up to two quotes may stand right
before the closing ones. -/
def longBasicText : List Char → Option (List Char × List Char)
  | [] => none
  | '"' :: '"' :: '"' :: '"' :: '"' :: rest => some (['"', '"'], rest)
  | '"' :: '"' :: '"' :: '"' :: rest => some (['"'], rest)
  | '"' :: '"' :: '"' :: rest => some ([], rest)
  | '\r' :: '\n' :: rest => (longBasicText rest).map fun (text, rest) => ('\n' :: text, rest)
  | c :: rest =>
      if c = '\\' then
        if hidesLineEnd rest then
          have := skipHidden_length rest
          longBasicText (skipHidden rest)
        else
          match h : escape? rest with
          | none => none
          | some (escaped, after) =>
              have := escape?_length h
              (longBasicText after).map fun (text, rest) => (escaped :: text, rest)
      else if isShown c || c == '\n' then
        (longBasicText rest).map fun (text, rest) => (c :: text, rest)
      else none
termination_by text => text.length

/-- A literal text on one line, after its opening quote. -/
def literalText : List Char → Option (List Char × List Char)
  | [] => none
  | c :: rest =>
      if c = '\x27' then some ([], rest)
      else if isShown c then (literalText rest).map fun (text, rest) => (c :: text, rest)
      else none

/-- A literal text between triple quotes, after the opening ones. -/
def longLiteralText : List Char → Option (List Char × List Char)
  | [] => none
  | '\x27' :: '\x27' :: '\x27' :: '\x27' :: '\x27' :: rest => some (['\x27', '\x27'], rest)
  | '\x27' :: '\x27' :: '\x27' :: '\x27' :: rest => some (['\x27'], rest)
  | '\x27' :: '\x27' :: '\x27' :: rest => some ([], rest)
  | '\r' :: '\n' :: rest => (longLiteralText rest).map fun (text, rest) => ('\n' :: text, rest)
  | c :: rest =>
      if isShown c || c == '\n' then
        (longLiteralText rest).map fun (text, rest) => (c :: text, rest)
      else none

/-- The text after opening triple quotes, without the line end that may follow them. -/
def dropLineEnd : List Char → List Char
  | '\n' :: rest => rest
  | '\r' :: '\n' :: rest => rest
  | rest => rest

/-- A quoted text in any of its forms. -/
def quotedText? : List Char → Option (List Char × List Char)
  | '"' :: '"' :: '"' :: rest => longBasicText (dropLineEnd rest)
  | '"' :: rest => basicText rest
  | '\x27' :: '\x27' :: '\x27' :: rest => longLiteralText (dropLineEnd rest)
  | '\x27' :: rest => literalText rest
  | _ => none

/-! Writing. -/

/-- The length of the longest row of a character. -/
def longestRow (c : Char) (text : List Char) : Nat :=
  ((Text.splitWhere (· != c) text).map List.length).foldl max 0

/-- Control characters that only an escape can write. -/
def isControl (c : Char) : Bool :=
  (c.toNat < 0x20 && c != '\t' && c != '\n') || c.toNat == 0x7f

def upperHex (n : Nat) : Char :=
  Char.ofNat (if n < 10 then 48 + n else 55 + n)

/-- A character of a basic text, escaped where it has to be. -/
def escapeChar (c : Char) : List Char :=
  if c = '\x08' then ['\\', 'b']
  else if c = '\t' then ['\\', 't']
  else if c = '\n' then ['\\', 'n']
  else if c = '\x0c' then ['\\', 'f']
  else if c = '\r' then ['\\', 'r']
  else if c = '"' then ['\\', '"']
  else if c = '\\' then ['\\', '\\']
  else if c.toNat < 0x20 ∨ c.toNat = 0x7f then
    ['\\', 'u', '0', '0', upperHex (c.toNat / 16), upperHex (c.toNat % 16)]
  else [c]

/-- The inside of triple quotes: line ends stay, and so do the first two quotes of each row. -/
def escapeLong : Nat → List Char → List Char
  | _, [] => []
  | quotes, c :: rest =>
      if c = '"' then
        if quotes < 2 then '"' :: escapeLong (quotes + 1) rest
        else '\\' :: '"' :: escapeLong 0 rest
      else if c = '\n' then '\n' :: escapeLong 0 rest
      else escapeChar c ++ escapeLong 0 rest

/-- Opening triple quotes are followed by a line end if the text has several lines. -/
def longStart (text : List Char) : List Char :=
  if text.contains '\n' then ['\n'] else []

def quote (text : List Char) : List Char :=
  let escaped := text.any isControl
  let doubles := longestRow '"' text
  let singles := longestRow '\x27' text
  let long := text.contains '\n'
  let slashed := text.contains '\\'
  let basic := '"' :: text.flatMap escapeChar ++ ['"']
  let longBasic := "\"\"\"".toList ++ longStart text ++ escapeLong 0 text ++ "\"\"\"".toList
  let longLiteral := "'''".toList ++ longStart text ++ text ++ "'''".toList
  if !escaped && !slashed && doubles = 0 && !long then basic
  else if !escaped && singles = 0 && !long then '\x27' :: text ++ ['\x27']
  else if !escaped && !slashed && doubles ≤ 2 then longBasic
  else if !escaped && singles ≤ 2 then longLiteral
  else if long then longBasic
  else basic

end TickHost.Toml
