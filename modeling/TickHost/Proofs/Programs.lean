import TickHost.Proofs.Includes
import TickHost.Proofs.Splits

/-!
Directive programs. A program is run line by line, without its blank lines and its comments, up to
the first line that faults, and the last line that is run tells how the program ends. `Does` says
what that does to the world: one directive after the other has its effect, and after an include the
texts that came are run in the same way, each as an evaluation that is entered and announced for
itself.

The main results are that there is one such effect and no other, as long as the includes of the
program nest only finitely.
-/

namespace TickHost

open World Machine

/-! ### Rows of a text -/

namespace Text

/-- The rows that a text is made of. Each ends at a line feed, with a carriage return before it or
not, and what follows the last line feed is a row unless it is empty. -/
inductive Rows : List Char → List (List Char) → Prop where
  | nothing : Rows [] []
  | last {row : List Char} (hsome : row ≠ []) (hplain : '\n' ∉ row) : Rows row [row]
  | feed {row text : List Char} {rows : List (List Char)} (hplain : '\n' ∉ row)
      (hend : row.getLast? ≠ some '\r') (hrows : Rows text rows) :
      Rows (row ++ '\n' :: text) (row :: rows)
  | returnFeed {row text : List Char} {rows : List (List Char)} (hplain : '\n' ∉ row)
      (hrows : Rows text rows) : Rows (row ++ '\r' :: '\n' :: text) (row :: rows)

variable {row : List Char}

theorem lines_plain (hplain : '\n' ∉ row) : lines row = if row = [] then [] else [row] := by
  have hsplit : splitEvery '\n' row = [row] :=
    splitWhere_eq_singleton fun c hc => by
      rw [beq_eq_false_iff_ne]
      rintro rfl
      exact hplain hc
  cases row with
  | nil => simp [lines, hsplit]
  | cons c row => simp [lines, hsplit]

theorem lines_append (hplain : '\n' ∉ row) (text : List Char) :
    lines (row ++ '\n' :: text) = dropReturn row :: lines text := by
  have hsplit : splitEvery '\n' (row ++ '\n' :: text) = row :: splitEvery '\n' text :=
    splitWhere_append (fun c hc => by
      rw [beq_eq_false_iff_ne]
      rintro rfl
      exact hplain hc) (beq_self_eq_true '\n')
  obtain ⟨first, parts, hparts⟩ :=
    List.exists_cons_of_ne_nil (splitWhere_ne_nil (· == '\n') text)
  simp only [lines, hsplit]
  rw [splitEvery, hparts, List.dropLast_cons_cons, List.getLast?_cons_cons, List.map_cons]
  split <;> rfl

theorem rows_lines (text : List Char) : Rows text (lines text) := by
  induction hlength : text.length using Nat.strongRecOn generalizing text with
  | ind n ih =>
      by_cases hfeed : '\n' ∈ text
      · obtain ⟨row, rest, rfl, hplain⟩ := List.eq_append_cons_of_mem hfeed
        have hrest := ih rest.length (by simp at hlength; omega) rest rfl
        rw [lines_append hplain, dropReturn]
        split
        · rename_i hreturn
          obtain ⟨front, rfl⟩ := List.getLast?_eq_some_iff.mp hreturn
          rw [List.dropLast_concat, List.append_assoc]
          exact .returnFeed (fun hmem => hplain (List.mem_append_left _ hmem)) hrest
        · rename_i hreturn
          exact .feed hplain hreturn hrest
      · rw [lines_plain hfeed]
        split
        · rename_i hnone
          rw [hnone]
          exact .nothing
        · rename_i hsome
          exact .last hsome hfeed

end Text

/-! ### The lines of a program -/

namespace Directive

open Text

/-- What is wrong with a line: it cannot be read, or it throws. -/
def fault? (text : List Char) : Option String :=
  match read text with
  | .error message | .ok (.throw message) => some message
  | .ok _ => none

/-- The value of a line. -/
def result (text : List Char) : Value :=
  match read text with
  | .ok (.value v) => v
  | _ => .undefined

/-- How a line ends. -/
def ending (origin : String) (line : Nat × List Char) : Outcome :=
  match fault? line.2 with
  | some message => .faulted ⟨origin, line.1, message⟩
  | none => .returned (result line.2)

/-- How some lines end, one after the other, after something else has ended. -/
def endingAfter (o : Outcome) (origin : String) (run : List (Nat × List Char)) : Outcome :=
  (run.getLast?).elim o (ending origin)

/-- How a program ends: as the last line that is run, and without a value if there is none. -/
def outcome (origin : String) (run : List (Nat × List Char)) : Outcome :=
  endingAfter (.returned .undefined) origin run

def isSound (line : Nat × List Char) : Bool :=
  (fault? line.2).isNone

/-- The lines that are run: those before the first that faults, and that one. -/
def ran (lines : List (Nat × List Char)) : List (Nat × List Char) :=
  lines.takeWhile isSound ++ (lines.dropWhile isSound).take 1

/-- The directives of a program, with the numbers of their lines: every line counts. -/
def spoken (program : String) (start : Nat) : List (Nat × List Char) :=
  (lines program.toList).zipIdx.filterMap fun (row, offset) =>
    if isSpoken (trim row) then some (start + offset, trim row) else none

variable {x : Nat × List Char} {lines : List (Nat × List Char)}

@[simp]
theorem ran_nil : ran [] = [] := rfl

theorem ran_cons_sound (hsound : fault? x.2 = none) : ran (x :: lines) = x :: ran lines := by
  simp [ran, isSound, hsound]

theorem ran_cons_fault {message : String} (hfault : fault? x.2 = some message) :
    ran (x :: lines) = [x] := by
  simp [ran, isSound, hfault]

theorem ran_eq_nil (hran : ran lines = []) : lines = [] := by
  cases lines with
  | nil => rfl
  | cons x lines =>
      cases hfault : fault? x.2 with
      | none => cases (ran_cons_sound hfault).symm.trans hran
      | some message => cases (ran_cons_fault hfault).symm.trans hran

theorem ran_eq_cons {run : List (Nat × List Char)} (hran : ran lines = x :: run) :
    ∃ rest, lines = x :: rest ∧
      ((∃ message, fault? x.2 = some message) ∧ run = [] ∨ fault? x.2 = none ∧ ran rest = run) := by
  cases lines with
  | nil => cases hran
  | cons y rest =>
      cases hfault : fault? y.2 with
      | none =>
          cases (ran_cons_sound hfault).symm.trans hran
          exact ⟨rest, rfl, .inr ⟨hfault, rfl⟩⟩
      | some message =>
          cases (ran_cons_fault hfault).symm.trans hran
          exact ⟨rest, rfl, .inl ⟨⟨message, hfault⟩, rfl⟩⟩

theorem endingAfter_cons (o : Outcome) (origin : String) (x : Nat × List Char)
    (run : List (Nat × List Char)) :
    endingAfter o origin (x :: run) = endingAfter (ending origin x) origin run := by
  rw [endingAfter, endingAfter, List.getLast?_cons]
  cases run.getLast? <;> rfl

/-- Which lines are run does not depend on their numbers. -/
theorem map_ran (f : Nat → Nat) (lines : List (Nat × List Char)) :
    ran (lines.map fun x => (f x.1, x.2)) = (ran lines).map fun x => (f x.1, x.2) := by
  induction lines with
  | nil => rfl
  | cons x lines ih =>
      cases hfault : fault? x.2 with
      | none =>
          rw [ran_cons_sound hfault, List.map_cons, List.map_cons, ← ih]
          exact ran_cons_sound hfault
      | some message =>
          rw [ran_cons_fault hfault, List.map_cons]
          exact ran_cons_fault hfault

theorem linesOf_eq (program : String) (start : Nat) :
    linesOf program start = (spoken program 0).map fun x => (lineNumber start x.1, x.2) := by
  rw [linesOf, spoken, List.zipIdx_map, ← List.filterMap_eq_filter, ← List.filterMap_eq_map,
    ← List.filterMap_eq_map, ← List.filterMap_eq_map, List.filterMap_filterMap,
    List.filterMap_filterMap, List.filterMap_filterMap]
  refine List.filterMap_congr fun entry _ => ?_
  cases hspoken : isSpoken (trim entry.1) <;> simp [hspoken, Option.guard]

/-- As long as the numbers of lines fit, they are counted from the start. -/
theorem linesOf_eq_spoken {program : String} {start : Nat}
    (hfits : start + (Text.lines program.toList).length < Nat.pow 2 32) :
    linesOf program start = spoken program start := by
  rw [linesOf_eq, spoken, spoken, List.map_filterMap]
  refine List.filterMap_congr fun entry hentry => ?_
  have hoffset := (List.mem_zipIdx hentry).2.1
  have hline : lineNumber start entry.2 = start + entry.2 := Nat.mod_eq_of_lt (by omega)
  cases hspoken : isSpoken (trim entry.1) <;> simp [hspoken, hline]

end Directive

/-! ### What a program does -/

/-- The text that is evaluated for an entry of a batch. -/
def Treatment.text? : Treatment → Option String
  | evaluated text _ _ => some text
  | reported _ => none

/-- What the includes of a program depend on, and whether directives are carried out at all. No
directive changes any of it. -/
structure Surroundings where
  disk : Disk
  remote : Table String
  fetcher : Option Fetcher
  parent : Option String
  origin : String
  directives : Bool
  stopping : Bool
  crashed : Bool

namespace Surroundings

open Directive

/-- The URLs that a line asks for and waits for. -/
def asks (s : Surroundings) (text : List Char) : List Url :=
  match read text with
  | .ok (.includeAll references) =>
      if s.stopping then []
      else references.filterMap fun reference => Reference.resolve? reference s.parent s.origin
  | _ => []

def results (s : Surroundings) (urls : List Url) : FetchResults :=
  match s.fetcher with
  | none => FetchResults.unconfigured urls
  | some fetcher => fetcher.resultsNow s.disk s.remote urls

/-- What becomes of the URLs that a line asks for. -/
def treatments (s : Surroundings) (text : List Char) : List Treatment :=
  (s.asks text).map (s.results (s.asks text)).treatment

/-- The texts that are evaluated for the lines of a program, not counting those that these texts
include in turn. -/
def included (s : Surroundings) (program : String) : List String :=
  (ran (spoken program 0)).flatMap fun x => (s.treatments x.2).filterMap Treatment.text?

/-- The includes of a program nest only finitely. -/
def Nests (s : Surroundings) (program : String) : Prop :=
  Acc (fun text including => text ∈ s.included including) program

end Surroundings

namespace World

def surroundings (w : World) (key : Nat) : Surroundings :=
  let h := w.host key
  ⟨w.disk, w.remote, h.fetcher, h.parent, h.script.origin, h.directives, w.isStopping key,
    w.crashed⟩

/-- Set the script engine of a host up, unless it is. -/
def setUp (w : World) (key : Nat) : World :=
  if (w.host key).initialized then w
  else w.updateHost key fun h => { h with initialized := true }

/-- Count an evaluation that begins. -/
def enter (w : World) (key : Nat) : World :=
  w.updateHost key fun h => { h with pending := h.pending + 1 }

variable (w : World) (key : Nat)

theorem setHost_surroundings {h : Host} (hfetcher : h.fetcher = (w.host key).fetcher)
    (hparent : h.parent = (w.host key).parent) (hscript : h.script = (w.host key).script)
    (hdirectives : h.directives = (w.host key).directives)
    (hregistry : h.registry = (w.host key).registry) :
    (w.setHost key h).surroundings key = w.surroundings key := by
  simp only [surroundings, isStopping, host_setHost, if_true, hfetcher, hparent, hscript,
    hdirectives, hregistry]
  rfl

@[simp]
theorem publish_surroundings (event : Event) (source : Source) :
    (w.publish key event source).surroundings key = w.surroundings key := by
  unfold publish
  dsimp only
  split
  · rfl
  · exact setHost_surroundings w key rfl rfl rfl rfl rfl

@[simp]
theorem requestStop_surroundings : (w.requestStop key).surroundings key = w.surroundings key := by
  unfold requestStop
  split
  · rfl
  · rw [publish_surroundings]
    exact setHost_surroundings w key rfl rfl rfl rfl rfl

@[simp]
theorem load_surroundings (reference : String) :
    (w.load key reference).surroundings key = w.surroundings key := by
  unfold load
  split
  · rfl
  · split
    · exact publish_surroundings w key _ _
    · rfl

@[simp]
theorem setTimer_surroundings (callback : Callback) (milliseconds : Nat) (once : Bool) :
    (w.setTimer key callback milliseconds once).2.surroundings key = w.surroundings key := by
  unfold setTimer
  dsimp only
  split
  · rfl
  · exact setHost_surroundings w key rfl rfl rfl rfl rfl

@[simp]
theorem resolveAll_surroundings (references : List String) :
    (w.resolveAll key references).2.surroundings key = w.surroundings key := by
  induction references using List.reverseRecOn with
  | nil => rfl
  | append_singleton references reference ih =>
      rw [resolveAll_step]
      split
      · exact ih
      · rw [publish_surroundings, ih]

@[simp]
theorem fetchNow_surroundings (urls : List Url) :
    (w.fetchNow key urls).2.surroundings key = w.surroundings key := by
  unfold fetchNow
  split <;> rfl

theorem fetchNow_results (urls : List Url) :
    (w.fetchNow key urls).1 = (w.surroundings key).results urls := by
  cases hfetcher : (w.host key).fetcher <;>
    simp [fetchNow, Surroundings.results, surroundings, hfetcher]

theorem asks_include {text : List Char} {references : List String}
    (hread : Directive.read text = .ok (.includeAll references))
    (hopen : w.isStopping key = false) :
    (w.surroundings key).asks text = (w.host key).resolved references := by
  simp only [Surroundings.asks, hread, surroundings, hopen, Bool.false_eq_true, if_false]
  rfl

@[simp]
theorem setUp_surroundings : (w.setUp key).surroundings key = w.surroundings key := by
  unfold setUp
  split
  · rfl
  · exact setHost_surroundings w key rfl rfl rfl rfl rfl

@[simp]
theorem enter_surroundings : (w.enter key).surroundings key = w.surroundings key :=
  setHost_surroundings w key rfl rfl rfl rfl rfl

@[simp]
theorem announceOutcome_surroundings (o : Outcome) :
    (Task.announceOutcome w o key).surroundings key = w.surroundings key := by
  have hleave : (w.updateHost key fun h => { h with pending := h.pending - 1 }).surroundings key =
      w.surroundings key := setHost_surroundings w key rfl rfl rfl rfl rfl
  unfold Task.announceOutcome
  dsimp only
  split
  · rw [publish_surroundings, hleave]
  · rw [publish_surroundings, reportFault, publish_surroundings, hleave]
  · exact hleave

@[simp]
theorem runDirective_surroundings (origin : String) (line : Nat) (text : List Char) :
    (Task.runDirective w key origin line text).world.surroundings key = w.surroundings key := by
  unfold Task.runDirective
  dsimp only
  split
  · rfl
  · rfl
  · rfl
  · exact publish_surroundings w key _ _
  · exact load_surroundings w key _
  · exact setTimer_surroundings w key _ _ _
  · exact setTimer_surroundings w key _ _ _
  · exact setHost_surroundings w key rfl rfl rfl rfl rfl
  · exact requestStop_surroundings w key
  · split
    · rfl
    · rw [fetchNow_surroundings, resolveAll_surroundings]

end World

/-- A part of a program: lines that are run, or a batch that is treated. -/
inductive Errand where
  | run (origin : String) (lines : List (Nat × List Char))
  | treat (batch : List Treatment)

open Directive in
/-- What an errand does to the world. Each line has its effect, and then what came for it is
treated; a text is evaluated under its own name, and however that ends the batch goes on. -/
inductive Does (key : Nat) : Errand → World → World → Prop where
  | ended {w : World} {origin : String} : Does key (.run origin []) w w
  | line {w w₁ w₂ : World} {origin : String} {x : Nat × List Char}
      {rest : List (Nat × List Char)}
      (htreat : Does key (.treat ((w.surroundings key).treatments x.2))
        (Task.runDirective w key origin x.1 x.2).world w₁)
      (hrest : Does key (.run origin rest) w₁ w₂) : Does key (.run origin (x :: rest)) w w₂
  | treated {w : World} : Does key (.treat []) w w
  | reported {w w₁ : World} {origin : String} {rest : List Treatment}
      (hrest : Does key (.treat rest) (w.publish key (.errorLoadingScript origin) .loader) w₁) :
      Does key (.treat (.reported origin :: rest)) w w₁
  | evaluated {w w₁ w₂ : World} {text origin : String} {line : Nat} {rest : List Treatment}
      (hruns : Does key (.run origin (ran (linesOf text line))) ((w.setUp key).enter key) w₁)
      (hrest : Does key (.treat rest)
        (Task.announceOutcome w₁ (outcome origin (ran (linesOf text line))) key) w₂) :
      Does key (.treat (.evaluated text origin line :: rest)) w w₂

variable {key : Nat} {w w' : World}

namespace Does

theorem surroundings {errand : Errand} (hdoes : Does key errand w w') :
    w'.surroundings key = w.surroundings key := by
  induction hdoes with
  | ended | treated => rfl
  | line _ _ ihtreat ihrest => simpa using ihrest.trans ihtreat
  | reported _ ihrest => simpa using ihrest
  | evaluated _ _ ihruns ihrest => simpa using ihrest.trans (by simpa using ihruns)

/-- An errand does one thing only. -/
theorem unique {errand : Errand} {w'' : World} (hdoes : Does key errand w w')
    (hdoes' : Does key errand w w'') : w' = w'' := by
  induction hdoes generalizing w'' with
  | ended | treated =>
      cases hdoes'
      rfl
  | line _ _ ihtreat ihrest =>
      cases hdoes' with
      | line htreat hrest =>
          cases ihtreat htreat
          exact ihrest hrest
  | reported _ ihrest =>
      cases hdoes' with
      | reported hrest => exact ihrest hrest
  | evaluated _ _ ihruns ihrest =>
      cases hdoes' with
      | evaluated hruns hrest =>
          cases ihruns hruns
          exact ihrest hrest

/-- Every run of a text, in the same surroundings, does something. -/
def Runs (s : Surroundings) (key : Nat) (text : String) : Prop :=
  ∀ origin line w, w.surroundings key = s →
    ∃ w', Does key (.run origin (Directive.ran (Directive.linesOf text line))) w w'

variable {s : Surroundings}

/-- A batch is treated if its texts can be run. -/
theorem exists_treat {batch : List Treatment} (hs : w.surroundings key = s)
    (hruns : ∀ text ∈ batch.filterMap Treatment.text?, Runs s key text) :
    ∃ w', Does key (.treat batch) w w' := by
  induction batch generalizing w with
  | nil => exact ⟨w, .treated⟩
  | cons first rest ih =>
      have hmore : ∀ text ∈ rest.filterMap Treatment.text?, Runs s key text := fun text htext =>
        hruns text (((List.sublist_cons_self first rest).filterMap _).subset htext)
      cases first with
      | reported origin =>
          obtain ⟨w', hrest⟩ := ih (w := w.publish key (.errorLoadingScript origin) .loader)
            (by simpa using hs) hmore
          exact ⟨w', .reported hrest⟩
      | evaluated text origin line =>
          obtain ⟨w₁, hrun⟩ := hruns text (by simp [Treatment.text?]) origin line
            ((w.setUp key).enter key) (by simpa using hs)
          obtain ⟨w', hrest⟩ := ih
            (w := Task.announceOutcome w₁
              (Directive.outcome origin (Directive.ran (Directive.linesOf text line))) key)
            (by simpa [hrun.surroundings] using hs) hmore
          exact ⟨w', .evaluated hrun hrest⟩

/-- Lines are run if the texts that they include can be. -/
theorem exists_run {lines : List (Nat × List Char)} (origin : String)
    (hs : w.surroundings key = s) (hruns : ∀ x ∈ lines,
      ∀ text ∈ (s.treatments x.2).filterMap Treatment.text?, Runs s key text) :
    ∃ w', Does key (.run origin lines) w w' := by
  induction lines generalizing w with
  | nil => exact ⟨w, .ended⟩
  | cons x rest ih =>
      obtain ⟨w₁, htreat⟩ := exists_treat
        (w := (Task.runDirective w key origin x.1 x.2).world) (by simpa using hs)
        (hruns x List.mem_cons_self)
      obtain ⟨w', hrest⟩ := ih (w := w₁) (by simpa [htreat.surroundings] using hs)
        fun y hy => hruns y (List.mem_cons_of_mem x hy)
      exact ⟨w', .line (by rwa [hs]) hrest⟩

/-- A program can be run if its includes nest only finitely. -/
theorem runs_of_nests {program : String} (hnests : s.Nests program) : Runs s key program := by
  induction hnests with
  | intro program _ ih =>
      intro origin line w hs
      refine exists_run origin hs fun x hx text htext => ih text ?_
      rw [Directive.linesOf_eq, Directive.map_ran] at hx
      obtain ⟨y, hy, rfl⟩ := List.mem_map.mp hx
      exact List.mem_flatMap.mpr ⟨y, hy, htext⟩

end Does

end TickHost
