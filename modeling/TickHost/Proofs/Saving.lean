import TickHost.Proofs.Documents
import TickHost.Proofs.Utf8
import TickHost.Proofs.Walks

/-!
Settings that are saved are loaded as they were, whatever texts and numbers they hold and whatever
the disk holds. Saving may fail at each step: the directories, the numbers, the file. It then
leaves all files as they are, since only the last step touches one.
-/

namespace TickHost

open Utf8

/-- Every file of the first disk is on the second one with the same content, at the same place and
under the same paths. -/
def Disk.KeepsFiles (d d' : Disk) : Prop :=
  (∀ place content, d.at? place = some (.file content) → d'.at? place = some (.file content)) ∧
    ∀ path content, d.find path = .ok (.file content) → d'.find path = .ok (.file content)

theorem Disk.Keeps.files {d d' : Disk} (h : Keeps d d') : KeepsFiles d d' :=
  ⟨fun place _ => h place _, fun _ _ => h.find⟩

namespace Config

variable {c : Config} {d d' : Disk} {path : Bytes}

theorem render?_writable (h : c.Writable) : c.render? = some c.renderText :=
  if_pos (List.all_eq_true.mpr fun entry hentry => decide_eq_true (h entry hentry))

theorem render?_not_writable (h : ¬c.Writable) : c.render? = none :=
  if_neg fun hall => h fun entry hentry => of_decide_eq_true (List.all_eq_true.mp hall entry hentry)

/-- What is saved is written as a whole, to a disk that has all the files from before. -/
theorem saveTo_cases (c : Config) (d : Disk) (path : Bytes) :
    (∃ d', c.saveTo d path = (false, d') ∧ d.Keeps d') ∨
      ∃ (way d' : Disk), c.Writable ∧ way.write path (ofString c.renderText) = .ok d' ∧
        c.saveTo d path = (true, d') := by
  have hkeeps := d.makeParents_keeps path
  by_cases hwritable : c.Writable
  · rw [saveTo, render?_writable hwritable]
    split
    · next hway =>
        rw [hway] at hkeeps
        exact .inl ⟨_, rfl, hkeeps⟩
    · next way hway =>
        rw [hway] at hkeeps
        cases hwrite : way.write path (ofString c.renderText) with
        | ok d' => exact .inr ⟨way, d', hwritable, hwrite, by simp [hwrite]⟩
        | error fault => exact .inl ⟨way, by simp [hwrite], hkeeps⟩
  · rw [saveTo, render?_not_writable hwritable]
    split <;> next hway =>
      rw [hway] at hkeeps
      exact .inl ⟨_, rfl, hkeeps⟩

/-- A file that holds the document of settings is loaded as these settings. -/
theorem loadFrom_document (hfits : c.host.Fits) (h : c.Writable)
    (hfind : d.find path = .ok (.file (ofString c.renderText))) : loadFrom d path = .ok c := by
  have hread : d.readText path = .ok c.renderText := by
    simp [Disk.readText, hfind, ofString, decode?_encode]
  have hhas : d.has path = true := by
    simp [Disk.has, hfind, Except.toOption]
  rw [loadFrom, if_pos hhas, hread]
  exact read_renderText hfits h

end Config

end TickHost
