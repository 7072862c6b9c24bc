import TickHost.Soak.Arguments

/-!
Reading a command line. A parameter is named in full after two dashes, or by its letter after one;
letters of switches may stand together, and a value may follow in the same word, with an equals
sign or, after a letter, without one. A word of two dashes makes scripts of all words that follow.

A parameter is not looked at when it is named but when the next one is, once its values are
complete. So a bad value goes unnoticed if the very next thing is a name that does not exist.
-/

namespace TickHost.Soak

structure CommandLine where
  arguments : Arguments
  given : List Parameter
  /-- What was named last and not looked at yet, with its values so far. -/
  pending : Option (Parameter × List String)
  onlyScripts : Bool
deriving Repr

namespace CommandLine

def start : CommandLine := ⟨.usual, [], none, false⟩

/-- Look at a parameter with all its values. -/
def enter (c : CommandLine) (p : Parameter) (values : List String) :
    Except UsageFault CommandLine :=
  if p.takesValue && values.isEmpty then .error .missing
  else if p ≠ .scripts && c.given.contains p then .error .repeated
  else
    let changed := if p.takesValue then values.foldlM (fun a text => a.set p text) c.arguments
      else c.arguments.turnOn p
    changed.map fun arguments => { c with arguments, given := p :: c.given }

/-- Look at what is pending. -/
def settle (c : CommandLine) : Except UsageFault CommandLine :=
  match c.pending with
  | none => .ok c
  | some (p, values) => { c with pending := none }.enter p values

/-- A parameter was named, perhaps with a value in the same word. -/
def name (c : CommandLine) (p : Parameter) (attached : Option String) :
    Except UsageFault CommandLine :=
  if attached.isSome && !p.takesValue then .error .unneeded
  else do
    let c ← c.settle
    match attached with
    | some value => c.enter p [value]
    | none => if p.takesValue then .ok { c with pending := some (p, []) } else c.enter p []

def long (c : CommandLine) (text : List Char) : Except UsageFault CommandLine :=
  let (word, attached) := match Text.splitFirst? '=' text with
    | some (word, value) => (word, some (String.ofList value))
    | none => (text, none)
  match Parameter.ofName? (String.ofList word) with
  | some p => c.name p attached
  | none => .error .unknown

def letters (c : CommandLine) : List Char → Except UsageFault CommandLine
  | [] => .ok c
  | letter :: rest =>
      match Parameter.ofLetter? letter with
      | none => .error .unknown
      | some p =>
          if p.takesValue then
            match rest with
            | [] => c.name p none
            | '=' :: value => c.name p (some (String.ofList value))
            | value => c.name p (some (String.ofList value))
          else do
            let c ← c.name p none
            letters c rest

def script (c : CommandLine) (text : String) : Except UsageFault CommandLine :=
  match c.pending with
  | some (.scripts, values) => .ok { c with pending := some (.scripts, values ++ [text]) }
  | _ => c.settle.map fun c => { c with pending := some (.scripts, [text]) }

/-- The next word. One that does not look like a name is the value that the last name waits for,
or else a script; a single dash is no name. -/
def word (c : CommandLine) (text : String) : Except UsageFault CommandLine :=
  if c.onlyScripts then c.script text
  else
    match text.toList with
    | ['-', '-'] => .ok { c with onlyScripts := true }
    | '-' :: '-' :: rest => c.long rest
    | '-' :: letter :: rest => c.letters (letter :: rest)
    | _ =>
        match c.pending with
        | some (p, []) => .ok { c with pending := some (p, [text]) }
        | _ => c.script text

end CommandLine

/-- The arguments that the words of a command line stand for. -/
def Arguments.read (words : List String) : Except UsageFault Arguments := do
  let c ← words.foldlM CommandLine.word .start
  let c ← c.settle
  return c.arguments

end TickHost.Soak
