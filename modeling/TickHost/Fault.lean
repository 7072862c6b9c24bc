/-!
What can go wrong, by cause, and the wording of each. A script fault is an exception that no
script caught; the host reports it and goes on. A load fault says why a source text could not be
obtained. A state fault is the refusal of an operation at the wrong moment of a host's life.
-/

namespace TickHost

structure ScriptFault where
  origin : String
  line : Nat
  message : String
deriving DecidableEq, Repr, Inhabited

def ScriptFault.render (f : ScriptFault) : String :=
  s!"Uncaught exception at ({f.origin}) line {f.line}: {f.message}"

inductive LoadFault where
  | notFound (url : String)
  | io (url reason : String)
  | unsupportedScheme (scheme url : String)
  | invalidUrl (url : String)
  /-- The fetch was given up without an answer. -/
  | cancelled (url : String)
deriving DecidableEq, Repr, Inhabited

def LoadFault.render : LoadFault → String
  | notFound url => "script not found: " ++ url
  | io url reason => s!"failed to read {url}: {reason}"
  | unsupportedScheme scheme url => "unsupported URL scheme '" ++ scheme ++ "' for " ++ url
  | invalidUrl url => "invalid script URL '" ++ url ++ "'"
  | cancelled url => s!"fetch for {url} was dropped before completing"

inductive StateFault where
  | alreadyRunning
  | stoppingAll
  | hostGone
deriving DecidableEq, Repr, Inhabited

def StateFault.render : StateFault → String
  | alreadyRunning => "operation not allowed while the script is running"
  | stoppingAll => "operation ignored while all scripts are stopping"
  | hostGone => "script host is no longer alive"

end TickHost
