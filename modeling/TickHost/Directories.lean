import TickHost.Path

/-!
Where the program keeps its files. Each kind has a base directory that the environment may name;
a relative or empty name does not count, and then the base lies in the home directory.
-/

namespace TickHost

structure Environment where
  home : String
  configHome : Option String
  dataHome : Option String
  cacheHome : Option String
deriving DecidableEq, Repr

namespace Environment

/-- An environment that names nothing but the home directory. -/
def ofHome (home : String) : Environment := ⟨home, none, none, none⟩

/-- The directory of the program below a base directory. -/
def directory (e : Environment) (named : Option String) (usual : String) : String :=
  let base := match named with
    | some path =>
        if Path.isAbsolute (Utf8.ofString path) then path else Path.joinText e.home usual
    | none => Path.joinText e.home usual
  Path.joinText base "cadence"

def configDirectory (e : Environment) : String :=
  e.directory e.configHome ".config"

def dataDirectory (e : Environment) : String :=
  e.directory e.dataHome ".local/share"

def cacheDirectory (e : Environment) : String :=
  e.directory e.cacheHome ".cache"

def configPath (e : Environment) : String :=
  Path.joinText e.configDirectory "config.toml"

/-- Where scripts are kept if the settings do not say. -/
def scriptDirectory (e : Environment) : String :=
  Path.joinText e.dataDirectory "scripts"

end Environment

end TickHost
