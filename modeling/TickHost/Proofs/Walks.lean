import TickHost.Disk

/-!
Walking on a disk. A walk looks only at the directories it goes through and at the place where it
ends, so it ends there on every other disk that has the same directories and the same end. Making
directories puts them only where nothing is, and writing a file does not touch a directory; hence
neither changes where a path leads, unless it leads to the file that is written.
-/

namespace TickHost.Disk

open Utf8

variable {d : Disk} {place names : List Bytes} {p : List Bytes} {entry : DiskEntry}

theorem lookup_filter {entries : List (List Bytes × DiskEntry)} (hp : p ≠ place) :
    (entries.filter fun (q, _) => q ≠ place).lookup p = entries.lookup p := by
  induction entries with
  | nil => rfl
  | cons first entries ih =>
      obtain ⟨q, e⟩ := first
      by_cases hq : q = place
      · have hpq : (p == q) = false := beq_false_of_ne (hq ▸ hp)
        rw [List.filter_cons_of_neg (by simp [hq]), ih, List.lookup_cons, hpq]
      · rw [List.filter_cons_of_pos (by simp [hq]), List.lookup_cons, List.lookup_cons, ih]

theorem at?_put (d : Disk) (place p : List Bytes) (entry : DiskEntry) :
    (d.put place entry).at? p =
      if p = [] then some .directory else if p = place then some entry else d.at? p := by
  by_cases hnil : p = []
  · simp [at?, hnil]
  have hempty : p.isEmpty = false := by simpa using hnil
  by_cases hp : p = place
  · rw [if_neg hnil, if_pos hp, at?, hempty, if_neg Bool.false_ne_true, put, hp,
      List.lookup_cons_self]
  · rw [if_neg hnil, if_neg hp, at?, at?, hempty, if_neg Bool.false_ne_true, put,
      List.lookup_cons, beq_false_of_ne hp, lookup_filter hp]
    rfl

/-! ### Walks -/

theorem at?_of_walk (h : d.walk place names = .ok (p, entry)) : d.at? p = some entry := by
  induction names generalizing place with
  | nil =>
      simp only [walk] at h
      split at h
      · next hat =>
          cases h
          exact hat
      · cases h
  | cons name names ih =>
      simp only [walk] at h
      split at h
      · cases h
      · cases h
      · split at h
        · cases h
        · split at h
          · exact ih h
          · exact ih h

/-- A walk that ends is the same on a disk with the same directories and the same end. -/
theorem walk_of_keeps {d' : Disk}
    (hdirectories : ∀ q, d.at? q = some .directory → d'.at? q = some .directory)
    (h : d.walk place names = .ok (p, entry)) (hend : d'.at? p = some entry) :
    d'.walk place names = .ok (p, entry) := by
  induction names generalizing place with
  | nil =>
      simp only [walk] at h
      split at h
      · cases h
        simp only [walk, hend]
      · cases h
  | cons name names ih =>
      simp only [walk] at h
      split at h
      · cases h
      · cases h
      · next hat =>
          simp only [walk, hdirectories _ hat]
          split at h
          · cases h
          · next hlength =>
              rw [if_neg hlength]
              split at h
              · next hdots =>
                  rw [if_pos hdots]
                  exact ih h
              · next hdots =>
                  rw [if_neg hdots]
                  exact ih h

theorem walk_append (more : List Bytes) (h : d.walk place names = .ok (p, entry)) :
    d.walk place (names ++ more) = d.walk p more := by
  induction names generalizing place with
  | nil =>
      simp only [walk] at h
      split at h
      · cases h
        rfl
      · cases h
  | cons name names ih =>
      simp only [walk] at h
      simp only [List.cons_append, walk]
      split at h
      · cases h
      · cases h
      · next hat =>
          split at h
          · cases h
          · next hlength =>
              simp only [if_neg hlength]
              split at h
              · next hdots =>
                  rw [if_pos hdots]
                  exact ih h
              · next hdots =>
                  rw [if_neg hdots]
                  exact ih h

/-! ### Making directories -/

/-- The second disk has everything that the first one has. -/
def Keeps (d d' : Disk) : Prop :=
  ∀ p entry, d.at? p = some entry → d'.at? p = some entry

theorem Keeps.refl (d : Disk) : Keeps d d := fun _ _ h => h

theorem Keeps.find {d' : Disk} {path content : Bytes} (h : Keeps d d')
    (hfind : d.find path = .ok (.file content)) : d'.find path = .ok (.file content) := by
  unfold Disk.find at hfind ⊢
  split at hfind
  · cases hfind
  · split at hfind
    · cases hfind
    · cases hfind
    · next hwalk =>
        rw [walk_of_keeps (fun q => h q _) hwalk (h _ _ (at?_of_walk hwalk))]
        exact hfind

theorem makeWay_keeps (place names : List Bytes) (d : Disk) :
    Keeps d (makeWay place names d).1 := by
  induction names generalizing place d with
  | nil => exact Keeps.refl d
  | cons name names ih =>
      simp only [makeWay]
      split
      · exact Keeps.refl d
      split
      · exact ih place.dropLast d
      split
      · exact ih (place ++ [name]) d
      · exact Keeps.refl d
      · next hnone =>
          intro p entry hp
          refine ih (place ++ [name]) _ p entry ?_
          have hne : p ≠ place ++ [name] := by
            rintro rfl
            cases hnone.symm.trans hp
          rw [at?_put, if_neg hne]
          split
          · next hnil =>
              subst hnil
              exact hp
          · exact hp

theorem makeParents_keeps (d : Disk) (path : Bytes) : Keeps d (d.makeParents path).1 := by
  unfold makeParents
  simp only
  split
  · exact Keeps.refl d
  · split
    · exact Keeps.refl d
    · exact makeWay_keeps _ _ d

/-! ### Writing -/

/-- A file that was written is found under the path it was written to. -/
theorem find_of_write {d' : Disk} {path content : Bytes} (h : d.write path content = .ok d') :
    d'.find path = .ok (.file content) := by
  unfold write at h
  simp only at h
  split at h
  · cases h
  · cases h
  · next name hfault hlast =>
      split at h
      · cases h
      · cases h
      · next place hwalk =>
          split at h
          · cases h
          next hlength =>
          split at h
          · cases h
          next hname =>
          split at h
          · cases h
          next hfree =>
          cases h
          obtain ⟨hdots, hends⟩ : name ≠ Path.dotDot ∧ Path.endsAsDirectory path = false := by
            simpa using hname
          have hdirectory := at?_of_walk hwalk
          -- The directories on the way are other places than the one that is written.
          have hother : ∀ q, d.at? q = some .directory →
              (d.put (place ++ [name]) (.file content)).at? q = some .directory := by
            intro q hq
            rw [at?_put]
            split
            · rfl
            · rw [if_neg, hq]
              rintro rfl
              exact hfree hq
          have hnames : Path.names path = (Path.names path).dropLast ++ [name] := by
            obtain ⟨leading, hleading⟩ := List.getLast?_eq_some_iff.mp hlast
            rw [hleading, List.dropLast_concat]
          have hend : (d.put (place ++ [name]) (.file content)).walk place [name] =
              .ok (place ++ [name], .file content) := by
            simp [walk, hother _ hdirectory, hlength, hdots, at?_put]
          rw [find, hfault, hnames,
            walk_append _ (walk_of_keeps hother hwalk (hother _ hdirectory)), hend]
          simp [hends]

end TickHost.Disk
