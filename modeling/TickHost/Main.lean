import TickHost.Soak.CommandLine
import TickHost.Soak.Run

/-!
The soak tool. It reads its command line, its settings and the scripts, carries the run out on a
clock of its own that skips the waiting, and prints what the run tells.
-/

namespace TickHost.Soak.Tool

def readEnvironment : IO Environment := do
  return ⟨(← IO.getEnv "HOME").getD "/", ← IO.getEnv "XDG_CONFIG_HOME",
    ← IO.getEnv "XDG_DATA_HOME", ← IO.getEnv "XDG_CACHE_HOME"⟩

/-- The disk with one more file, if there is such a file. -/
def readFile (d : Disk) (path : String) : IO Disk := do
  try
    let content ← IO.FS.readBinFile path
    let place := Utf8.ofString path
    match d.makeParents place with
    | (_, some _) => return d
    | (next, none) => return ((next.write place content.toList).toOption).getD d
  catch _ => return d

def readUrl (d : Disk) (url : Url) : IO Disk := do
  match url.toPath?.bind Utf8.decode? with
  | some path => readFile d (String.ofList path)
  | none => return d

/-- A script that is not a URL is a path from the working directory. -/
def scriptPlace (directory script : String) : String :=
  if (Url.parse? script).any fun url => 1 < url.scheme.length then script
  else Path.joinText directory script

/-- The disk with the text of a script. -/
def readScript (d : Disk) (script : String) : IO Disk :=
  match Url.parse? script with
  | some url => if 1 < url.scheme.length then readUrl d url else readFile d script
  | none => readFile d script

/-- Print what was announced since the last time. -/
partial def tell (r : Run) : IO Run := do
  match r.hear? with
  | none => return r
  | some (r, line) =>
      line.forM IO.println
      tell r

/-- Go on until nothing is left to do or the clock shows a certain time. -/
partial def proceed (until? : Option Nat) (r : Run) : IO Run := do
  if r.isIdle || until?.any (· ≤ r.machine.world.clock) then return r
  let disk ← r.filesWanted.foldlM readUrl r.machine.world.disk
  proceed until? (← tell (r.withDisk disk).step)

/-- One host from its beginning to its end. -/
def runHost (duration : Nat) (r : Run) (script : String) : IO Run := do
  let limit := r.machine.world.clock + duration * 1000000
  let r ← proceed (if duration = 0 then none else some limit) (r.beginHost script)
  let r ← proceed none (if r.isIdle then r else r.stopHost)
  proceed none r.endHost

def soak (a : Arguments) (c : Config) (scripts : List String) : IO Unit := do
  IO.println ("Starting soak run: " ++ toString scripts.length ++ " script(s) x " ++
    toString a.copies ++ " copies")
  let disk ← scripts.foldlM readScript .empty
  let r ← proceed none (.start disk c.host a.verbose)
  let all := scripts.flatMap fun script => List.replicate a.copies script
  let r ← all.foldlM (runHost a.duration) r
  IO.println "Soak run complete"
  IO.println ("Scripts loaded: " ++ toString r.counts.loaded.toNat)
  IO.println r.counts.summary
  IO.println ("Hosts still registered: " ++ toString r.registered)

/-- The tool, and its exit code. -/
def perform (words : List String) : IO UInt32 := do
  match Arguments.read words with
  | .error .help =>
      IO.println UsageFault.help.render
      return 0
  | .error fault =>
      IO.eprintln fault.render
      return 2
  | .ok a =>
      let environment ← readEnvironment
      let directory := toString (← IO.currentDir)
      let a := { a with
        scripts := a.scripts.map (scriptPlace directory)
        configPath := a.configPath.map (Path.joinText directory) }
      let disk ← readFile .empty (a.configPath.getD environment.configPath)
      match a.loadConfig disk environment with
      | .error fault =>
          IO.eprintln ("Error: failed to load config\n\nCaused by:\n    " ++ fault.render)
          return 1
      | .ok config =>
          match a.scriptsToRun config environment with
          | [] =>
              IO.eprintln "Error: no scripts given and nothing to autoload in the config"
              return 1
          | scripts =>
              soak a config scripts
              return 0

end TickHost.Soak.Tool

def main (words : List String) : IO UInt32 :=
  TickHost.Soak.Tool.perform words
