import TickHost.Decimal.Numeral
import TickHost.Url.Basic
import TickHost.Url.Host

/-!
Reading URLs. `Url.parse?` reads a text that names its scheme; `Url.join?` reads a reference, which
may leave out the scheme and everything after it that it shares with a base. Fragment and query are
cut off first, since they mean the same everywhere. In a path, dot segments are carried out while
it is read, a backslash separates where the scheme is special, and in a file path a drive letter
is written with a colon and is never left by a dot segment.
-/

namespace TickHost.Url

open Text

/-- What counts of a text: no blanks and controls at its ends, no tabs and line ends anywhere. -/
def readable (text : String) : List Char :=
  let blank := fun (c : Char) => decide (c.toNat ≤ 0x20)
  let trimmed := ((text.toList.dropWhile blank).reverse.dropWhile blank).reverse
  trimmed.filter fun c => c ≠ '\t' ∧ c ≠ '\n' ∧ c ≠ '\r'

def isSchemeChar (c : Char) : Bool :=
  c.isAlphanum || "+-.".toList.contains c

/-- The scheme in lower case, and what follows its colon. -/
def splitScheme? (text : List Char) : Option (String × List Char) :=
  match splitFirst? ':' text with
  | some (scheme, rest) =>
      if (scheme.head?.any Char.isAlpha) && scheme.all isSchemeChar then
        some (String.ofList (scheme.map Char.toLower), rest)
      else none
  | none => none

def SchemeKind.isSlash (kind : SchemeKind) (c : Char) : Bool :=
  c == '/' || (c == '\\' && kind != .other)

/-- A reference without its scheme, before anything is encoded. -/
structure Pieces where
  body : List Char
  query : Option (List Char)
  fragment : Option (List Char)
deriving DecidableEq, Repr

namespace Pieces

def read (text : List Char) : Pieces :=
  let (text, fragment) := match splitFirst? '#' text with
    | some (before, after) => (before, some after)
    | none => (text, none)
  match splitFirst? '?' text with
  | some (before, after) => ⟨before, some after, fragment⟩
  | none => ⟨text, none, fragment⟩

def queryText (p : Pieces) (kind : SchemeKind) : Option String :=
  p.query.map fun text => String.ofList (percentEncode (keptInQuery (kind != .other)) text)

def fragmentText (p : Pieces) : Option String :=
  p.fragment.map fun text => String.ofList (percentEncode keptInFragment text)

end Pieces

/-! Paths. -/

/-- A letter and a colon, or the bar that was once written for it. -/
def isDriveLetter : List Char → Bool
  | [letter, mark] => letter.isAlpha && (mark == ':' || mark == '|')
  | _ => false

def isSingleDot (part : List Char) : Bool :=
  [".", "%2e"].contains (String.ofList (part.map Char.toLower))

def isDoubleDot (part : List Char) : Bool :=
  ["..", "%2e.", ".%2e", "%2e%2e"].contains (String.ofList (part.map Char.toLower))

/-- One segment up. -/
def leave (done : List String) : List String :=
  match done.getLast? with
  | some last => if isDriveLetter last.toList then done else done.dropLast
  | none => []

/-- The text of an ordinary segment that follows `done`. -/
def segmentText (kind : SchemeKind) (done : List String) (part : List Char) : String :=
  if kind = .file ∧ done = [] ∧ isDriveLetter part then String.ofList (part.take 1 ++ [':'])
  else String.ofList (percentEncode keptInPath part)

/-- The segments of a path, of which `done` is known already. A dot segment at the end leaves an
empty one, so that it stands for a directory. -/
def walk (kind : SchemeKind) : List String → List (List Char) → List String
  | done, [] => done
  | done, part :: rest =>
      if isDoubleDot part then
        if rest.isEmpty then leave done ++ [""] else walk kind (leave done) rest
      else if isSingleDot part then
        if rest.isEmpty then done ++ [""] else walk kind done rest
      else walk kind (done ++ [segmentText kind done part]) rest

def walkText (kind : SchemeKind) (done : List String) (text : List Char) : List String :=
  walk kind done (splitWhere kind.isSlash text)

/-- A file path does not start with empty segments, unless it is the root. -/
def dropLeadingEmpty (parts : List String) : List String :=
  let rest := parts.dropWhile (· == "")
  if rest.isEmpty then [""] else rest

def startsWithDrive (parts : List String) : Bool :=
  parts.head?.any fun first => isDriveLetter first.toList

/-- The directory that the segments of a path lie in. A drive letter is its own directory. -/
def directory (kind : SchemeKind) (parts : List String) : List String :=
  if kind = .file ∧ startsWithDrive parts ∧ parts.length = 1 then parts else parts.dropLast

/-! Authorities. -/

/-- The host, and what follows the first colon outside brackets. -/
def splitPort (inBrackets : Bool) : List Char → List Char × Option (List Char)
  | [] => ([], none)
  | c :: rest =>
      if c = ':' ∧ inBrackets = false then ([], some rest)
      else
        let (host, port) := splitPort (c == '[' || (inBrackets && c != ']')) rest
        (c :: host, port)

/-- The usual port of a scheme is left out, and so is an empty one. -/
def port? (scheme : String) (digits : List Char) : Option (Option Nat) :=
  let n := Decimal.digitsValue digits
  if !digits.all Char.isDigit || 65535 < n then none
  else if digits.isEmpty || usualPort? scheme = some n then some none
  else some (some n)

/-- A user, a password or a port needs a host, and so does every special scheme. -/
def authority? (scheme : String) (kind : SchemeKind) (text : List Char) : Option Authority := do
  let (user, place) := match splitLast? '@' text with
    | some (user, place) => (some user, place)
    | none => (none, text)
  let (username, password) := match splitFirst? ':' (user.getD []) with
    | some (username, password) => (username, password)
    | none => (user.getD [], [])
  let (hostText, portText) := splitPort false place
  if hostText.isEmpty && (kind != .other || user.isSome || portText.isSome) then none
  else
    let host ← if kind = .other then otherHost? hostText else specialHost? hostText
    let port ← port? scheme (portText.getD [])
    let encoded := fun text => String.ofList (percentEncode keptInUserInfo text)
    some ⟨encoded username, encoded password, host, port⟩

/-! URLs. -/

/-- What follows `//` in a scheme other than `file`. -/
def withAuthority? (scheme : String) (kind : SchemeKind) (body : List Char) (p : Pieces) :
    Option Url := do
  let authority ← authority? scheme kind (body.takeWhile fun c => !kind.isSlash c)
  let rest := body.dropWhile fun c => !kind.isSlash c
  let path := if rest.isEmpty && kind = .other then [] else walkText kind [] (rest.drop 1)
  some ⟨scheme, some authority, .segments path, p.queryText kind, p.fragmentText⟩

def fileWith (host : String) (path : List String) (p : Pieces) : Url :=
  ⟨"file", some (.ofHost host), .segments (dropLeadingEmpty path), p.queryText .file,
    p.fragmentText⟩

/-- What follows `//` in a file URL. The host of this machine is left out, and so is any host
before a drive letter. -/
def fileWithHost? (body : List Char) (p : Pieces) : Option Url := do
  let name := body.takeWhile fun c => !SchemeKind.file.isSlash c
  let rest := body.dropWhile fun c => !SchemeKind.file.isSlash c
  if isDriveLetter name then some (fileWith "" (walkText .file [] body) p)
  else
    let host ← if name.isEmpty then some "" else specialHost? name
    let path := walkText .file [] (rest.drop 1)
    let host := if host = "localhost" || startsWithDrive path then "" else host
    some (fileWith host path p)

/-- Whether a path starts with a drive letter that is a segment of its own. -/
def startsWithDriveSegment (body : List Char) : Bool :=
  isDriveLetter (body.takeWhile fun c => !SchemeKind.file.isSlash c)

/-- The base with another query and fragment, where the reference says nothing else. -/
def withTail (base : Url) (p : Pieces) : Url :=
  match p.query with
  | none => { base with fragment := p.fragmentText }
  | some _ =>
      { base with query := p.queryText (schemeKind base.scheme), fragment := p.fragmentText }

def Path.parts : Path → List String
  | bare _ => []
  | segments parts => parts

/-- After one slash a file path starts anew, below the drive letter or the host of the base. -/
def fileFromRoot (host : String) (parts : List String) (body : List Char) (p : Pieces) : Url :=
  if startsWithDriveSegment body then fileWith "" (walkText .file [] body) p
  else if startsWithDrive parts then fileWith "" (walkText .file (parts.take 1) body) p
  else fileWith host (walkText .file [] body) p

/-- A file URL, of which a base may know the beginning. -/
def file? (base : Option Url) (p : Pieces) : Option Url :=
  let slash := SchemeKind.file.isSlash
  let host := ((base.bind Url.host?).getD "")
  let parts := (base.map fun b => b.path.parts).getD []
  match p.body, base with
  | [], some b => some (b.withTail p)
  | [], none => some (fileWith "" [""] p)
  | c :: body, base =>
      if slash c then
        if body.head?.any slash then fileWithHost? (body.drop 1) p
        else some (fileFromRoot host parts body p)
      else if base.isNone || startsWithDriveSegment (c :: body) then
        some (fileWith "" (walkText .file [] (c :: body)) p)
      else some (fileWith host (walkText .file (directory .file parts) (c :: body)) p)

/-- A reference that takes its scheme from a base other than a file. Here a backslash is a slash
in every scheme. -/
def relative? (base : Url) (p : Pieces) : Option Url :=
  let kind := schemeKind base.scheme
  let slash := fun (c : Char) => c == '/' || c == '\\'
  let withPath := fun done text => some
    { base with path := .segments (walkText kind done text), query := p.queryText kind,
                fragment := p.fragmentText }
  match p.body with
  | [] => some (base.withTail p)
  | '/' :: '/' :: rest => withAuthority? base.scheme kind rest p
  | c :: body =>
      if slash c then
        if body.head?.any slash then withAuthority? base.scheme kind (body.dropWhile slash) p
        else withPath [] body
      else withPath (directory kind base.path.parts) (c :: body)

/-- What follows the scheme. A special scheme is followed by an authority however many slashes
are written, except that fewer than two after the scheme of the base begin a relative reference. -/
def withScheme? (base : Option Url) (scheme : String) (rest : List Char) : Option Url :=
  let kind := schemeKind scheme
  let p := Pieces.read rest
  let sibling := base.filter fun b => b.scheme = scheme
  match kind with
  | .file => file? sibling p
  | .special =>
      let slashes := p.body.takeWhile kind.isSlash
      match sibling with
      | some b =>
          if slashes.length < 2 then relative? b p
          else withAuthority? scheme kind (p.body.drop slashes.length) p
      | none => withAuthority? scheme kind (p.body.drop slashes.length) p
  | .other =>
      match p.body with
      | '/' :: '/' :: body => withAuthority? scheme kind body p
      | '/' :: body =>
          some ⟨scheme, none, .segments (walkText kind [] body), p.queryText kind, p.fragmentText⟩
      | body =>
          some ⟨scheme, none, .bare (String.ofList (percentEncode isPlain body)),
            p.queryText kind, p.fragmentText⟩

/-- A URL that names its scheme. -/
def parse? (text : String) : Option Url :=
  (splitScheme? (readable text)).bind fun (scheme, rest) => withScheme? none scheme rest

/-- A reference read against a base. With a bare path, the base takes nothing but a fragment. -/
def join? (base : Url) (reference : String) : Option Url :=
  let text := readable reference
  match splitScheme? text with
  | some (scheme, rest) => withScheme? (some base) scheme rest
  | none =>
      let p := Pieces.read text
      match base.path with
      | .bare _ =>
          if p.body.isEmpty && p.query.isNone && p.fragment.isSome then some (base.withTail p)
          else none
      | .segments _ =>
          if schemeKind base.scheme = .file then file? (some base) p else relative? base p

end TickHost.Url
