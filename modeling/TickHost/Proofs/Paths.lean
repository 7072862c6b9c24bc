import TickHost.Proofs.Splits
import TickHost.Proofs.Utf8
import TickHost.Proofs.Walks
import TickHost.Url.File

/-!
What a path leads to depends on its names alone. An absolute path is read like the path that is made
of its names, unless it says by its end that it means a directory; and like the one that is left
when the two dots among the names are carried out, since on the way to a file every place exists.
-/

namespace TickHost

open Utf8 Text

namespace Path

variable {path : Bytes} {ns : List Bytes}

/-- A name between two slashes that is followed on a disk. -/
structure IsName (name : Bytes) : Prop where
  some : name ≠ []
  other : name ≠ dot
  whole : slash ∉ name

/-- The path from the root that has these names. -/
def ofNames (ns : List Bytes) : Bytes :=
  ns.flatMap (slash :: ·)

theorem ofNames_concat (ns : List Bytes) (name : Bytes) :
    ofNames (ns ++ [name]) = ofNames ns ++ slash :: name := by
  simp [ofNames]

theorem whole_of_split {xs part : Bytes} (hpart : part ∈ splitWhere (· == slash) xs) :
    slash ∉ part := fun hmem => by
  have hnot := (mem_splitWhere hpart hmem).2
  simp at hnot

theorem isName_of_mem {name : Bytes} (h : name ∈ names path) : IsName name := by
  obtain ⟨hmem, hkept⟩ := List.mem_filter.mp h
  obtain ⟨hsome, hother⟩ := of_decide_eq_true hkept
  exact ⟨hsome, hother, whole_of_split hmem⟩

theorem split_ofNames (h : ∀ name ∈ ns, slash ∉ name) :
    splitWhere (· == slash) (ofNames ns) = [] :: ns := by
  have hwhole : ∀ name ∈ ns, ∀ b ∈ name, (b == slash) = false := fun name hname b hb =>
    beq_false_of_ne fun heq => h name hname (heq ▸ hb)
  exact @splitWhere_flatMap UInt8 (· == slash) slash (beq_self_eq_true slash) ns hwhole

theorem names_ofNames (h : ∀ name ∈ ns, IsName name) : names (ofNames ns) = ns := by
  rw [names, split_ofNames fun name hname => (h name hname).whole,
    List.filter_cons_of_neg (by simp), List.filter_eq_self]
  exact fun name hname => decide_eq_true ⟨(h name hname).some, (h name hname).other⟩

theorem endsAsDirectory_ofNames (h : ∀ name ∈ ns, IsName name) (hsome : ns ≠ []) :
    endsAsDirectory (ofNames ns) = false := by
  rw [endsAsDirectory, split_ofNames fun name hname => (h name hname).whole]
  rcases List.eq_nil_or_concat ns with rfl | ⟨before, last, rfl⟩
  · exact absurd rfl hsome
  · have hlast := h last (by simp)
    rw [List.concat_eq_append, ← List.cons_append, List.getLast?_concat]
    simp [hlast.some, hlast.other]

/-- A slash at the end says that a path means a directory. -/
theorem endsAsDirectory_slash (h : ∀ name ∈ ns, slash ∉ name) :
    endsAsDirectory (ofNames ns ++ [slash]) = true := by
  have hmore : ofNames ns ++ [slash] = ofNames (ns ++ [[]]) := (ofNames_concat ns []).symm
  have hwhole : ∀ name ∈ ns ++ [[]], slash ∉ name := by
    intro name hname
    rcases List.mem_append.mp hname with hname | hname
    · exact h name hname
    · exact List.mem_singleton.mp hname ▸ List.not_mem_nil
  rw [endsAsDirectory, hmore, split_ofNames hwhole, ← List.cons_append, List.getLast?_concat]
  rfl

/-! ### Absolute paths -/

/-- An absolute path is made of the parts after its first slash, which may be empty or dots. -/
theorem parts_of_absolute (h : isAbsolute path = true) : ∃ parts : List Bytes, parts ≠ [] ∧
    path = ofNames parts ∧ splitWhere (· == slash) path = [] :: parts ∧
      names path = parts.filter fun name => name ≠ [] ∧ name ≠ dot := by
  cases path with
  | nil => cases h
  | cons b rest =>
      have hb : b = slash := Option.some.inj (of_decide_eq_true h)
      subst hb
      have hsplit : splitWhere (· == slash) (slash :: rest) =
          [] :: splitWhere (· == slash) rest := splitWhere_cons_true (beq_self_eq_true slash)
      refine ⟨splitWhere (· == slash) rest, splitWhere_ne_nil _ _, ?_, hsplit, ?_⟩
      · exact (flatMap_splitWhere slash rest).symm
      · rw [names, hsplit, List.filter_cons_of_neg (by simp)]

theorem ofNames_sublist {ns' : List Bytes} (h : ns.Sublist ns') :
    (ofNames ns).Sublist (ofNames ns') := by
  induction h with
  | slnil => exact List.Sublist.refl _
  | cons name _ ih => exact ih.trans (List.sublist_append_right _ _)
  | cons_cons name _ ih => exact (List.Sublist.refl (slash :: name)).append ih

/-- The path of the names is what is left of an absolute path. -/
theorem ofNames_names (h : isAbsolute path = true) : (ofNames (names path)).Sublist path := by
  obtain ⟨parts, -, hpath, -, hnames⟩ := parts_of_absolute h
  have hsublist := ofNames_sublist
    (@List.filter_sublist _ (fun name => name ≠ [] ∧ name ≠ dot) parts)
  rwa [← hnames, ← hpath] at hsublist

/-- An absolute path that may mean a file ends with its last name. -/
theorem last_of_absolute (h : isAbsolute path = true) (hends : endsAsDirectory path = false) :
    ∃ (before : Bytes) (ns : List Bytes) (last : Bytes), IsName last ∧
      path = before ++ slash :: last ∧ names path = ns ++ [last] := by
  obtain ⟨parts, hsome, hpath, hsplit, hnames⟩ := parts_of_absolute h
  rcases List.eq_nil_or_concat parts with rfl | ⟨init, last, rfl⟩
  · exact absurd rfl hsome
  · rw [List.concat_eq_append] at hpath hsplit hnames
    rw [endsAsDirectory, hsplit, ← List.cons_append, List.getLast?_concat] at hends
    simp only [Bool.or_eq_false_iff, decide_eq_false_iff_not] at hends
    have hlast : last ∈ splitWhere (· == slash) path := by simp [hsplit]
    refine ⟨ofNames init, init.filter fun name => name ≠ [] ∧ name ≠ dot, last,
      ⟨hends.1, hends.2, whole_of_split hlast⟩, hpath.trans (ofNames_concat init last), ?_⟩
    have hkept : [last].filter (fun name => name ≠ [] ∧ name ≠ dot) = [last] :=
      List.filter_cons_of_pos (decide_eq_true hends)
    rw [hnames, List.filter_append, hkept]

theorem endsAsDrive_append (before : Bytes) {last : Bytes} (hlast : last ≠ []) :
    Url.endsAsDrive (before ++ slash :: last) = Url.endsAsDrive (slash :: last) := by
  have hreverse : (before ++ slash :: last).reverse =
      last.reverse ++ slash :: before.reverse := by simp
  have hslash : (Char.ofNat slash.toNat).isAlpha = false := by decide
  rw [Url.endsAsDrive, Url.endsAsDrive, hreverse, List.reverse_cons]
  cases hl : last.reverse with
  | nil => exact absurd (List.reverse_eq_nil_iff.mp hl) hlast
  | cons mark more =>
      cases more with
      | nil => cases before.reverse <;> simp [hslash]
      | cons letter more => cases more <;> rfl

/-! ### Two dots -/

/-- The place that names lead to from a place, if everything on the way is a directory. -/
def climb : List Bytes → List Bytes → List Bytes
  | place, [] => place
  | place, name :: rest =>
      if name = dotDot then climb place.dropLast rest else climb (place ++ [name]) rest

theorem climb_sublist (place ns : List Bytes) : (climb place ns).Sublist (place ++ ns) := by
  induction ns generalizing place with
  | nil => simp [climb]
  | cons name ns ih =>
      rw [climb]
      split
      · refine (ih place.dropLast).trans ?_
        exact (List.dropLast_sublist place).append (List.sublist_cons_self name ns)
      · refine (ih (place ++ [name])).trans ?_
        rw [List.append_assoc]
        exact List.Sublist.refl _

theorem climb_concat {last : Bytes} (hlast : last ≠ dotDot) (place ns : List Bytes) :
    climb place (ns ++ [last]) = climb place ns ++ [last] := by
  induction ns generalizing place with
  | nil => simp [climb, hlast]
  | cons name ns ih =>
      rw [List.cons_append, climb, climb]
      split
      · exact ih _
      · exact ih _

end Path

namespace Disk

open TickHost.Path

variable {d : Disk} {place p ns : List Bytes} {entry : DiskEntry} {path content : Bytes}

/-- What is on the way to a place, and the place itself, is reached from the root. -/
def Clear (d : Disk) (place : List Bytes) : Prop :=
  ∀ q, q <+: place → ∀ entry, d.at? q = some entry → d.walk [] q = .ok (q, entry)

theorem clear_nil (d : Disk) : d.Clear [] := by
  intro q hq entry hentry
  obtain rfl := List.prefix_nil.mp hq
  simp only [walk, hentry]

/-- A walk ends where its names climb to, and this place is reached without two dots. -/
theorem walk_climb (hclear : d.Clear place) (h : d.walk place ns = .ok (p, entry)) :
    p = climb place ns ∧ d.Clear p := by
  induction ns generalizing place with
  | nil =>
      simp only [walk] at h
      split at h
      · cases h
        exact ⟨rfl, hclear⟩
      · cases h
  | cons name ns ih =>
      simp only [walk] at h
      split at h
      · cases h
      · cases h
      next hdirectory =>
      split at h
      · cases h
      next hlength =>
      rw [climb]
      split at h
      · next hdots =>
          rw [if_pos hdots]
          exact ih (fun q hq => hclear q (hq.trans (List.dropLast_prefix place))) h
      · next hdots =>
          rw [if_neg hdots]
          refine ih (fun q hq e he => ?_) h
          rcases List.prefix_concat_iff.mp hq with rfl | hq
          · rw [walk_append [name] (hclear place (List.prefix_refl _) _ hdirectory)]
            simp only [walk, hdirectory, if_neg hlength, if_neg hdots, he]
          · exact hclear q hq e he

theorem pathFault?_sublist {path' : Bytes} (hsub : path'.Sublist path) (hsome : path' ≠ [])
    (h : pathFault? path = none) : pathFault? path' = none := by
  unfold pathFault? at h ⊢
  split at h
  · cases h
  next hzero =>
  split at h
  · cases h
  split at h
  · cases h
  next hlimit =>
  rw [if_neg, if_neg (by simpa using hsome), if_neg]
  · have hlength := hsub.length_le
    omega
  · rw [List.contains_iff_mem] at hzero ⊢
    exact fun hmem => hzero (hsub.subset hmem)

/-- How a file is found. -/
theorem find_file (h : d.find path = .ok (.file content)) :
    pathFault? path = none ∧ endsAsDirectory path = false ∧
      ∃ place, d.walk [] (names path) = .ok (place, .file content) := by
  unfold Disk.find at h
  split at h
  · cases h
  next hfault =>
  split at h
  · cases h
  · cases h
  next place _ hwalk =>
  split at h
  · cases h
  next hends =>
  cases h
  exact ⟨hfault, Bool.eq_false_iff.mpr hends, place, hwalk⟩

/-- A file is also found by some of the names of its path, if they lead to it. -/
theorem find_ofNames (habsolute : isAbsolute path = true) (hfault : pathFault? path = none)
    (hsub : ns.Sublist (names path)) (hwalk : d.walk [] ns = .ok (place, .file content)) :
    ns ≠ [] ∧ d.find (ofNames ns) = .ok (.file content) := by
  have hnames : ∀ name ∈ ns, IsName name := fun name hname => isName_of_mem (hsub.subset hname)
  have hsome : ns ≠ [] := by
    rintro rfl
    simp [walk, at?] at hwalk
  have hpath : ofNames ns ≠ [] := by
    obtain ⟨name, rest, rfl⟩ := List.exists_cons_of_ne_nil hsome
    simp [ofNames]
  have hshort := (ofNames_sublist hsub).trans (ofNames_names habsolute)
  refine ⟨hsome, ?_⟩
  rw [Disk.find, pathFault?_sublist hshort hpath hfault, names_ofNames hnames, hwalk]
  simp [endsAsDirectory_ofNames hnames hsome]

/-- A file is found under the path of its names. -/
theorem find_names (habsolute : isAbsolute path = true) (h : d.find path = .ok (.file content)) :
    names path ≠ [] ∧ d.find (ofNames (names path)) = .ok (.file content) := by
  obtain ⟨hfault, -, place, hwalk⟩ := find_file h
  exact find_ofNames habsolute hfault (List.Sublist.refl _) hwalk

/-- A file is found under the path of its place. -/
theorem find_climb (habsolute : isAbsolute path = true) (h : d.find path = .ok (.file content)) :
    climb [] (names path) ≠ [] ∧
      d.find (ofNames (climb [] (names path))) = .ok (.file content) := by
  obtain ⟨hfault, -, place, hwalk⟩ := find_file h
  obtain ⟨rfl, hclear⟩ := walk_climb (clear_nil d) hwalk
  exact find_ofNames habsolute hfault (climb_sublist [] (names path))
    (hclear _ (List.prefix_refl _) _ (at?_of_walk hwalk))

/-- A path that says that it means a directory leads to no file. -/
theorem find_directory (h : endsAsDirectory path = true) (content : Bytes) :
    d.find path ≠ .ok (.file content) := by
  unfold Disk.find
  split
  · exact nofun
  split
  · exact nofun
  · exact nofun
  · rw [if_pos h]
    exact nofun

theorem readText_eq_ok_iff {text : String} : d.readText path = .ok text ↔
    ∃ content, d.find path = .ok (.file content) ∧
      (decode? content).map String.ofList = some text := by
  unfold readText
  cases d.find path with
  | error fault => simp
  | ok entry =>
      cases entry with
      | directory => simp
      | file content => cases hread : decode? content <;> simp [hread]

theorem readText_of_find {text : String} (h : d.find path = .ok (.file (ofString text))) :
    d.readText path = .ok text := by
  refine readText_eq_ok_iff.mpr ⟨_, h, ?_⟩
  rw [ofString, decode?_encode, Option.map_some, String.ofList_toList]

end Disk

end TickHost
