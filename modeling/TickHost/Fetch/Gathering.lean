import TickHost.Fetch

/-!
How a batch of files is gathered, and how a caller waits for a batch. Every file has a task of its
own, and the tasks end in any order; the results are put together as they come in, and when there
are no more of them the callback is called. Who waits hands over a callback that sends what it is
called with. It can be called once, so when it is gone and nothing was sent, nothing will come.
-/

namespace TickHost

/-- A batch of files on its way. -/
structure Gathering where
  /-- The URLs whose files are being read. -/
  reading : List Url
  /-- What was read and not taken in yet, the task that ended first in front. -/
  ended : List (Url × Except LoadFault String)
  results : FetchResults
  /-- What the callback was called with. -/
  answers : List FetchResults
  /-- Whether the callback was called, after which there is nothing left to do. -/
  called : Bool

namespace Gathering

inductive Move where
  /-- A task reads its file and ends. -/
  | read (index : Nat)
  /-- The result that came in first is put to the others. -/
  | take
  /-- All tasks have ended and all results are taken in. -/
  | answer
deriving DecidableEq, Repr

/-- All tasks are under way. -/
def start (urls : List Url) : Gathering := ⟨urls, [], [], [], false⟩

def step? (disk : Disk) (g : Gathering) : Move → Option Gathering
  | .read index => g.reading[index]?.map fun url =>
      { g with reading := g.reading.eraseIdx index, ended := g.ended ++ [(url, disk.readUrl url)] }
  | .take =>
      match g.ended with
      | [] => none
      | (url, result) :: ended =>
          some { g with ended := ended, results := g.results.put url result }
  | .answer =>
      if g.called ∨ g.reading ≠ [] ∨ g.ended ≠ [] then none
      else some { g with answers := g.answers ++ [g.results], called := true }

def run? (disk : Disk) (g : Gathering) (moves : List Move) : Option Gathering :=
  moves.foldlM (step? disk) g

end Gathering

/-- The files of a batch, read one after the other by the caller. -/
def Disk.readUrls (disk : Disk) (urls : List Url) : FetchResults :=
  urls.foldl (fun results url => results.put url (disk.readUrl url)) []

/-- A caller that waits for a batch, and the callback that it handed over. -/
structure Wait where
  /-- Whether the callback can still be called. -/
  callable : Bool
  /-- Whether the callback still exists; while it runs, it does. -/
  held : Bool
  /-- What was sent and not received yet. -/
  sent : Option FetchResults
  /-- What the caller goes on with. -/
  received : Option FetchResults

namespace Wait

inductive Move where
  | call (results : FetchResults)
  /-- The callback is gone, called or not. -/
  | drop
  /-- The caller looks whether it can go on. -/
  | wake

def start : Wait := ⟨true, true, none, none⟩

def step? (urls : List Url) (w : Wait) : Move → Option Wait
  | .call results =>
      if w.callable then some { w with callable := false, sent := some results } else none
  | .drop => if w.held then some { w with callable := false, held := false } else none
  | .wake =>
      match w.received, w.sent, w.held with
      | none, some results, _ => some { w with sent := none, received := some results }
      | none, none, false => some { w with received := some (FetchResults.cancelled urls) }
      | _, _, _ => none

def run? (urls : List Url) (w : Wait) (moves : List Move) : Option Wait :=
  moves.foldlM (step? urls) w

/-- What the callback was called with, if it was called. -/
def delivered? (moves : List Move) : Option FetchResults :=
  moves.findSome? fun
    | .call results => some results
    | _ => none

end Wait

end TickHost
