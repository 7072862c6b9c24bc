import TickHost.Event

/-!
What a soak run tells about its hosts: counts of their events, and lines about what went wrong in
them. The counts have 32 bits.
-/

namespace TickHost.Soak

structure Counts where
  loaded : UInt32
  updates : UInt32
  printed : UInt32
  errors : UInt32
  finished : UInt32
deriving DecidableEq, Repr

namespace Counts

def zero : Counts := ⟨0, 0, 0, 0, 0⟩

instance : Inhabited Counts := ⟨zero⟩

/-- A script that could not be loaded is an error like any other. -/
def count (c : Counts) : Event → Counts
  | .scriptLoaded _ => { c with loaded := c.loaded + 1 }
  | .update _ => { c with updates := c.updates + 1 }
  | .printedMessage _ => { c with printed := c.printed + 1 }
  | .errorMessage _ | .errorLoadingScript _ => { c with errors := c.errors + 1 }
  | .doneRunning => { c with finished := c.finished + 1 }
  | _ => c

def summary (c : Counts) : String :=
  "Updates: " ++ toString c.updates.toNat ++ " | Printed: " ++ toString c.printed.toNat ++
    " | Errors: " ++ toString c.errors.toNat ++ " | Finished: " ++ toString c.finished.toNat

end Counts

/-- What is told about an event when it happens, if anything. -/
def notice? (verbose : Bool) (e : Envelope) : Option String :=
  let about := fun text => "[Host " ++ toString e.context.host ++ "] " ++ text
  match e.event with
  | .printedMessage message => if verbose then some (about message) else none
  | .errorMessage message => some (about message)
  | .errorLoadingScript origin => some (about ("Failed to load " ++ origin))
  | .loadScriptRequest url _ =>
      some (about ("Asked to load " ++ url ++ " (ignored by soak runs)"))
  | _ => none

end TickHost.Soak
