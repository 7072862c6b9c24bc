/-!
URLs in parts, and the text that the parts stand for. All parts hold text that is encoded already.
A URL either has a path in segments, against which references can be resolved, or a bare path that
nothing can be resolved against.
-/

namespace TickHost

structure Url.Authority where
  username : String
  password : String
  /-- A name or an address; files have an empty host. -/
  host : String
  /-- Left out where it is the usual one of the scheme. -/
  port : Option Nat
deriving DecidableEq, Repr, Inhabited

inductive Url.Path where
  | bare (text : String)
  | segments (parts : List String)
deriving DecidableEq, Repr, Inhabited

structure Url where
  scheme : String
  authority : Option Url.Authority
  path : Url.Path
  query : Option String
  fragment : Option String
deriving DecidableEq, Repr, Inhabited

namespace Url

def Authority.ofHost (host : String) : Authority := ⟨"", "", host, none⟩

def Authority.render (a : Authority) : String :=
  let secret := if a.password = "" then "" else ":" ++ a.password
  let user := if a.username = "" ∧ a.password = "" then "" else a.username ++ secret ++ "@"
  let port := match a.port with
    | some n => ":" ++ toString n
    | none => ""
  user ++ a.host ++ port

def Path.render : Path → String
  | bare text => text
  | segments parts => String.join (parts.map ("/" ++ ·))

/-- Without an authority, a path that starts with an empty segment would read as one. -/
def needsDot (u : Url) : Bool :=
  match u.authority, u.path with
  | none, .segments ("" :: _ :: _) => true
  | _, _ => false

def render (u : Url) : String :=
  let authority := match u.authority with
    | some a => "//" ++ a.render
    | none => if u.needsDot then "/." else ""
  let query := match u.query with
    | some q => "?" ++ q
    | none => ""
  let fragment := match u.fragment with
    | some f => "#" ++ f
    | none => ""
  u.scheme ++ ":" ++ authority ++ u.path.render ++ query ++ fragment

instance : ToString Url := ⟨render⟩

/-- Schemes that the standard treats specially. A file has no port, and a special scheme always
has an authority and a path. -/
inductive SchemeKind where
  | file
  | special
  | other
deriving DecidableEq, Repr

def schemeKind (scheme : String) : SchemeKind :=
  if scheme = "file" then .file
  else if ["http", "https", "ws", "wss", "ftp"].contains scheme then .special
  else .other

def usualPort? (scheme : String) : Option Nat :=
  [("http", 80), ("https", 443), ("ws", 80), ("wss", 443), ("ftp", 21)].lookup scheme

def host? (u : Url) : Option String :=
  u.authority.map Authority.host

end Url

end TickHost
