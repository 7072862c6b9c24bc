import TickHost.Toml.Quote
import TickHost.Toml.Scalar

/-!
Reading TOML documents. A document is a list of lines: blank ones, headers, and pairs of a key and
a value. Only the values in brackets nest, to a limited depth. Everything is read from the front of
the remaining text, so `fuel`, which starts above the length of the text, never runs out before
the text does.
-/

namespace TickHost.Toml

/-- How deep brackets may nest, and how many parts a key may have. -/
def nestingLimit : Nat := 79

def isSpace (c : Char) : Bool :=
  c == ' ' || c == '\t'

def skipSpace (text : List Char) : List Char :=
  text.dropWhile isSpace

/-- What may stand in a comment. -/
def isCommentChar (c : Char) : Bool :=
  isShown c || c.toNat == 0x7f

/-- Skip a comment, if there is one. -/
def skipComment : List Char → List Char
  | '#' :: rest => rest.dropWhile isCommentChar
  | rest => rest

/-- The text after the end of a line, where only a comment may come before it. -/
def lineEnd? (text : List Char) : Option (List Char) :=
  match skipComment (skipSpace text) with
  | [] => some []
  | '\n' :: rest => some rest
  | '\r' :: '\n' :: rest => some rest
  | _ => none

/-- Skip blanks, line ends and comments. -/
def skipFiller (inComment : Bool) : List Char → List Char
  | [] => []
  | '\n' :: rest => skipFiller false rest
  | '\r' :: '\n' :: rest => skipFiller false rest
  | c :: rest =>
      if inComment then if isCommentChar c then skipFiller true rest else c :: rest
      else if isSpace c then skipFiller false rest
      else if c = '#' then skipFiller true rest
      else c :: rest

def isBareKeyChar (c : Char) : Bool :=
  c.isAlphanum || c == '_' || c == '-'

/-- One part of a key. -/
def keyPart? (text : List Char) : Option (String × List Char) :=
  match text with
  | '"' :: rest => (basicText rest).map fun (key, rest) => (String.ofList key, rest)
  | '\x27' :: rest => (literalText rest).map fun (key, rest) => (String.ofList key, rest)
  | text =>
      let key := text.takeWhile isBareKeyChar
      if key.isEmpty then none else some (String.ofList key, text.dropWhile isBareKeyChar)

/-- A key with at most so many parts, and the blanks after it. -/
def key? : Nat → List Char → Option (List String × List Char)
  | 0, _ => none
  | limit + 1, text => do
      let (part, text) ← keyPart? (skipSpace text)
      match skipSpace text with
      | '.' :: rest =>
          let (parts, rest) ← key? limit rest
          some (part :: parts, rest)
      | rest => some ([part], rest)

mutual

/-- A value inside of brackets that may nest `depth` deep. -/
def value? : Nat → Nat → List Char → Option (Node × List Char)
  | 0, _, _ => none
  | fuel + 1, depth, text =>
      match text, depth with
      | '[' :: rest, depth + 1 => (items? fuel depth rest).map fun (items, rest) =>
          (.array items, rest)
      | '\x7b' :: rest, depth + 1 =>
          match skipSpace rest with
          | '\x7d' :: rest => some (.table .closed [], rest)
          | rest => do
              let (pairs, rest) ← pairs? fuel depth rest
              let entries ← addPairs .closed [] pairs
              some (.table .closed entries, rest)
      | text, _ =>
          match quotedText? text with
          | some (s, rest) => some (.text (String.ofList s), rest)
          | none =>
              let (first, rest) := scalarText text
              (scalar first).map (·, rest)

/-- The items of an array, after its opening bracket. A comma may follow the last one. -/
def items? : Nat → Nat → List Char → Option (List Node × List Char)
  | 0, _, _ => none
  | fuel + 1, depth, text =>
      match skipFiller false text with
      | ']' :: rest => some ([], rest)
      | text => do
          let (item, text) ← value? fuel depth text
          match skipFiller false text with
          | ',' :: rest =>
              let (items, rest) ← items? fuel depth rest
              some (item :: items, rest)
          | ']' :: rest => some ([item], rest)
          | _ => none

/-- The pairs of a table in braces, of which there is at least one, all on one line. -/
def pairs? : Nat → Nat → List Char → Option (List (List String × Node) × List Char)
  | 0, _, _ => none
  | fuel + 1, depth, text => do
      let (key, text) ← key? nestingLimit text
      match text with
      | '=' :: rest =>
          let (value, rest) ← value? fuel depth (skipSpace rest)
          match skipSpace rest with
          | ',' :: rest =>
              let (pairs, rest) ← pairs? fuel depth rest
              some ((key, value) :: pairs, rest)
          | '\x7d' :: rest => some ([(key, value)], rest)
          | _ => none
      | _ => none

end

/-- A line that says something. -/
inductive Line where
  | header (path : List String) (isArray : Bool)
  | pair (path : List String) (value : Node)

/-- What follows a header, up to the end of its line. -/
def headerEnd? (isArray : Bool) (text : List Char) : Option (List Char) :=
  match isArray, text with
  | true, ']' :: ']' :: rest => lineEnd? rest
  | false, ']' :: rest => lineEnd? rest
  | _, _ => none

def header? (isArray : Bool) (text : List Char) : Option (Line × List Char) := do
  let (path, text) ← key? nestingLimit text
  let rest ← headerEnd? isArray text
  some (.header path isArray, rest)

def pair? (fuel : Nat) (text : List Char) : Option (Line × List Char) := do
  let (path, text) ← key? nestingLimit text
  match text with
  | '=' :: rest =>
      let (value, rest) ← value? fuel nestingLimit (skipSpace rest)
      let rest ← lineEnd? rest
      some (.pair path value, rest)
  | _ => none

def lines? : Nat → List Char → Option (List Line)
  | 0, _ => none
  | fuel + 1, text =>
      match skipSpace text with
      | [] => some []
      | '[' :: '[' :: rest => do
          let (line, rest) ← header? true rest
          (lines? fuel rest).map (line :: ·)
      | '[' :: rest => do
          let (line, rest) ← header? false rest
          (lines? fuel rest).map (line :: ·)
      | text =>
          match lineEnd? text with
          | some rest => lines? fuel rest
          | none => do
              let (line, rest) ← pair? fuel text
              (lines? fuel rest).map (line :: ·)

/-- The pairs before the first header, and the sections that the headers begin. -/
def sections : List Line → List (List String × Node) × List Section
  | [] => ([], [])
  | .pair path value :: rest =>
      let (pairs, found) := sections rest
      ((path, value) :: pairs, found)
  | .header path isArray :: rest =>
      let (pairs, found) := sections rest
      ([], ⟨path, isArray, pairs⟩ :: found)

/-- The table that a document says. A byte order mark at its start does not count. -/
def parse? (text : String) : Option (Table Node) := do
  let text := match text.toList with
    | '\ufeff' :: rest => rest
    | text => text
  let lines ← lines? (text.length + 2) text
  let (pairs, found) := sections lines
  assemble? pairs found

end TickHost.Toml
