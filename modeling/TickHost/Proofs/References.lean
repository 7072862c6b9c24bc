import TickHost.Proofs.Joins
import TickHost.Reference
import TickHost.World.Loading

/-!
What a reference means is proper, and its text is read as itself wherever it is read, provided that
it is settled. Only a file may be unsettled. The names of a local path are taken over as they are,
so that two dots stay, and a drive letter may come behind a host or with a bar; when the text is
read again, the dots are carried out and the drive letter is brought into its form.
-/

namespace TickHost

open Utf8

namespace Url

/-! ### Local paths -/

/-- The segment for a name of a path. -/
def nameText (name : Bytes) : String :=
  String.ofList (percentEncodeBytes keptInFileName name)

theorem percentDecode_name (name : Bytes) : percentDecode (ofString (nameText name)) = name := by
  rw [nameText, ofString, String.toList_ofList]
  exact percentDecode_encode (by decide) name

/-- What a name is, told from its segment. -/
theorem name_of_text {name : Bytes} {text : List Char} (h : (nameText name).toList = text) :
    name = percentDecode (encode text) := by
  rw [← percentDecode_name name, ofString, h]

/-- Every name of a path but the dot is a segment. -/
theorem isSegment_name {name : Bytes} (hname : name ≠ Path.dot) :
    IsSegment .file (nameText name) := by
  have hdot : ∀ d, IsDot d → percentDecode (encode d) = Path.dot := by
    rintro d (rfl | rfl | rfl) <;> decide +kernel
  have hdots : ∀ d d', IsDot d → IsDot d' → percentDecode (encode (d ++ d')) = Path.dotDot := by
    rintro d d' (rfl | rfl | rfl) (rfl | rfl | rfl) <;> decide +kernel
  have hadmits : Admits fun c => keptInPath c && !"/\\".toList.contains c :=
    admits_of_all (fun c hc => admits_path.plain c (Bool.and_eq_true_iff.mp hc).1) (by decide)
  have hwider : ∀ c, keptInFileName c = true →
      (keptInPath c && !"/\\".toList.contains c) = true := by
    intro c hc
    rw [keptInPath_of_fileName hc, Text.contains_eq_false (by decide) hc]
    rfl
  have hkept : ∀ c ∈ (nameText name).toList,
      (keptInPath c && !"/\\".toList.contains c) = true := by
    rw [nameText, String.toList_ofList]
    exact fun c hc => kept_of_mem hadmits hwider hc
  refine ⟨?_, ?_, ?_, ?_⟩
  · exact fun c hc => (Bool.and_eq_true_iff.mp (hkept c hc)).1
  · intro c hc
    refine isSlash_eq_false ?_ ?_ .file <;> rintro rfl <;> exact absurd (hkept _ hc) (by decide)
  · rw [Bool.eq_false_iff]
    intro hsingle
    have hd := isSingleDot_iff.mp hsingle
    exact hname ((name_of_text rfl).trans (hdot _ hd))
  · intro hdouble
    obtain ⟨d, d', hd, hd', htext⟩ := isDoubleDot_iff.mp hdouble
    refine ⟨rfl, ?_⟩
    rw [(name_of_text htext).trans (hdots d d' hd hd')]
    decide

theorem ofPath_eq (path : Bytes) : ofPath path =
    let parts := (Path.names path).map nameText
    ⟨"file", some (.ofHost ""), .segments (if parts.isEmpty then [""] else parts), none, none⟩ :=
  rfl

theorem ofPath_proper (path : Bytes) : (ofPath path).Proper := by
  have hnames : ∀ name ∈ Path.names path, name ≠ [] ∧ name ≠ Path.dot := fun name hname =>
    of_decide_eq_true (List.mem_filter.mp hname).2
  have hsegments : ∀ s ∈ (Path.names path).map nameText, IsSegment .file s ∧ s ≠ "" := by
    intro s hs
    obtain ⟨name, hname, rfl⟩ := List.mem_map.mp hs
    obtain ⟨hsome, hdot⟩ := hnames name hname
    exact ⟨isSegment_name hdot, fun hvoid => hsome (name_of_text (by rw [hvoid]))⟩
  have hscheme : IsScheme "file" := ⟨by decide, by decide, by decide⟩
  rw [ofPath_eq]
  generalize (Path.names path).map nameText = parts at hsegments ⊢
  refine ⟨hscheme, .file rfl isFileHost_void ?_ ?_, nofun, nofun, nofun⟩
  · intro s hs
    split at hs
    · exact List.mem_singleton.mp hs ▸ isSegment_nil .file
    · exact (hsegments s hs).1
  · cases parts with
    | nil => exact .inl rfl
    | cons first parts =>
        refine .inr ⟨by simp, fun hhead => ?_⟩
        exact (hsegments first List.mem_cons_self).2 (Option.some.inj hhead)

/-! ### Settled URLs -/

/-- A URL that its text means. A file path holds no dots, and where it starts with a drive letter,
this is written with a colon, and there is no host. -/
def Settled (u : Url) : Prop :=
  u.scheme = "file" → ".." ∉ u.path.parts ∧ ∀ first ∈ u.path.parts.head?,
    isDriveLetter first.toList = true → first.toList.getLast? = some ':' ∧ u.host? = some ""

instance (u : Url) : Decidable u.Settled :=
  inferInstanceAs (Decidable (u.scheme = "file" → ".." ∉ u.path.parts ∧
    ∀ first ∈ u.path.parts.head?, isDriveLetter first.toList = true →
      first.toList.getLast? = some ':' ∧ u.host? = some ""))

theorem dropLeadingEmpty_rooted {parts : List String} (h : Rooted parts) :
    dropLeadingEmpty parts = parts := by
  rcases h with rfl | ⟨hsome, hhead⟩
  · decide
  · obtain ⟨first, parts, rfl⟩ := List.exists_cons_of_ne_nil hsome
    have hfirst : (first == "") = false := by simpa using hhead
    rw [dropLeadingEmpty, List.dropWhile_cons_of_neg (by simp [hfirst])]
    rfl

/-- A drive letter stays at the start of a path. -/
theorem head?_walk_drive {kind : SchemeKind} {drive : String}
    (hdrive : isDriveLetter drive.toList = true) {done : List String} {parts : List (List Char)}
    (hdone : done.head? = some drive) : (walk kind done parts).head? = some drive := by
  have hadd : ∀ (done : List String) (s : String), done.head? = some drive →
      (done ++ [s]).head? = some drive := fun done s h => by
    rw [List.head?_append, h]
    rfl
  have hleave : ∀ done : List String, done.head? = some drive →
      (leave done).head? = some drive := by
    intro done h
    obtain ⟨rest, rfl⟩ := List.head?_eq_some_iff.mp h
    unfold leave
    cases rest with
    | nil => simp [hdrive]
    | cons s rest =>
        split
        · split
          · rfl
          · rfl
        · next hnone => simp at hnone
  induction parts generalizing done with
  | nil => exact hdone
  | cons part parts ih =>
      rw [walk]
      split
      · split
        · exact hadd _ _ (hleave done hdone)
        · exact ih (hleave done hdone)
      split
      · split
        · exact hadd _ _ hdone
        · exact ih hdone
      · exact ih (hadd _ _ hdone)

/-- The first step of a walk through a file path that does not start with dots. -/
theorem walk_first {first : String} {parts : List String} (hfirst : IsSegment .file first)
    (hdots : isDoubleDot first.toList = false) :
    walk .file [] ((first :: parts).map String.toList) =
      walk .file [segmentText .file [] first.toList] (parts.map String.toList) := by
  rw [List.map_cons, walk, if_neg (by simp [hdots]), if_neg (by simp [hfirst.single])]
  rfl

/-- A file path without dots is walked to its end, up to its drive letter. -/
theorem walk_file {first : String} {parts : List String}
    (hparts : ∀ s ∈ first :: parts, IsSegment .file s) (hdots : ".." ∉ first :: parts) :
    walk .file [] ((first :: parts).map String.toList) =
      segmentText .file [] first.toList :: parts := by
  have hplain : ∀ s ∈ first :: parts, isDoubleDot s.toList = false := by
    intro s hs
    rw [Bool.eq_false_iff]
    exact fun hdouble => hdots (((hparts s hs).double hdouble).2 ▸ hs)
  rw [walk_first (hparts first List.mem_cons_self) (hplain first List.mem_cons_self),
    walk_segments (by simp) fun s hs => ⟨hparts s (List.mem_cons_of_mem _ hs),
      hplain s (List.mem_cons_of_mem _ hs)⟩]
  rfl

theorem segmentText_drive {letter mark : Char} (hletter : letter.isAlpha = true)
    (hmark : mark = ':' ∨ mark = '|') :
    segmentText .file [] [letter, mark] = String.ofList [letter, ':'] := by
  rw [segmentText, if_pos ⟨rfl, rfl, isDriveLetter_iff.mpr ⟨letter, mark, rfl, hletter, hmark⟩⟩]
  rfl

theorem startsWithDrive_cons (first : String) (parts : List String) :
    startsWithDrive (first :: parts) = isDriveLetter first.toList :=
  rfl

/-- A drive letter at the start stays there, and gets a colon. -/
theorem head?_walk_first {first : String} {parts : List String} {letter mark : Char}
    (hfirst : IsSegment .file first) (htext : first.toList = [letter, mark])
    (hletter : letter.isAlpha = true) (hmark : mark = ':' ∨ mark = '|') :
    (walk .file [] ((first :: parts).map String.toList)).head? =
      some (String.ofList [letter, ':']) := by
  have hdrive : isDriveLetter first.toList = true :=
    isDriveLetter_iff.mpr ⟨letter, mark, htext, hletter, hmark⟩
  have hstep := @walk_first first parts hfirst (isDoubleDot_drive hdrive)
  rw [htext, segmentText_drive hletter hmark] at hstep
  exact (congrArg List.head? hstep).trans (head?_walk_drive (isDriveLetter_colon hletter) rfl)

/-- If reading changes neither the path nor the host, the drive letter at its start is in its
form. -/
theorem drive_of_fixed {host first : String} {rest : List String}
    (hfirst : IsSegment .file first) (hdrive : isDriveLetter first.toList = true)
    (hpath : dropLeadingEmpty (walk .file [] ((first :: rest).map String.toList)) = first :: rest)
    (hhost : (if startsWithDrive (walk .file [] ((first :: rest).map String.toList)) then ""
      else host) = host) :
    first.toList.getLast? = some ':' ∧ host = "" := by
  obtain ⟨letter, mark, htext, hletter, hmark⟩ := isDriveLetter_iff.mp hdrive
  have hhead := @head?_walk_first first rest letter mark hfirst htext hletter hmark
  generalize walk .file [] ((first :: rest).map String.toList) = path at hpath hhost hhead
  obtain ⟨after, rfl⟩ := List.head?_eq_some_iff.mp hhead
  have hrooted : Rooted (String.ofList [letter, ':'] :: after) := by
    refine .inr ⟨List.cons_ne_nil _ _, fun hvoid => ?_⟩
    cases ofList_eq_iff.mp (Option.some.inj hvoid)
  rw [dropLeadingEmpty_rooted hrooted] at hpath
  rw [startsWithDrive_cons, isDriveLetter_colon hletter, if_pos rfl] at hhost
  refine ⟨?_, hhost.symm⟩
  rw [← (List.cons.inj hpath).1, String.toList_ofList]
  rfl

/-- A first segment stays as it is, if a drive letter is in its form. -/
theorem segmentText_first {first : String} (hfirst : IsSegment .file first)
    (hdrive : isDriveLetter first.toList = true → first.toList.getLast? = some ':') :
    segmentText .file [] first.toList = first := by
  cases hletter : isDriveLetter first.toList with
  | false => exact segmentText_eq_self hfirst fun _ _ => hletter
  | true =>
      obtain ⟨letter, mark, htext, halpha, hmark⟩ := isDriveLetter_iff.mp hletter
      have hcolon := hdrive hletter
      rw [htext] at hcolon ⊢
      obtain rfl := Option.some.inj hcolon
      rw [segmentText_drive halpha hmark, ofList_eq_iff, htext]

/-- A file path is what its text means if no dots are left to carry out, and the drive letter is
in its form. -/
theorem file_settled_iff {host : String} {parts : List String}
    (hparts : ∀ s ∈ parts, IsSegment .file s) (hrooted : Rooted parts) :
    let path := walk .file [] (parts.map String.toList)
    (dropLeadingEmpty path = parts ∧ (if startsWithDrive path then "" else host) = host) ↔
      ".." ∉ parts ∧ ∀ first ∈ parts.head?, isDriveLetter first.toList = true →
        first.toList.getLast? = some ':' ∧ host = "" := by
  have hsome : parts ≠ [] := by
    rcases hrooted with rfl | ⟨hsome, -⟩
    · simp
    · exact hsome
  have hwhole : ∀ part ∈ parts.map String.toList, ∀ c ∈ part,
      SchemeKind.file.isSlash c = false := by
    intro part hpart
    obtain ⟨s, hs, rfl⟩ := List.mem_map.mp hpart
    exact (hparts s hs).whole
  intro path
  constructor
  · rintro ⟨hpath, hhost⟩
    refine ⟨fun hdots => ?_, fun first hfirst hdrive => ?_⟩
    · rcases mem_dropLeadingEmpty (hpath ▸ hdots) with h | h
      · exact absurd h (by decide)
      · exact absurd (no_dots_walk hwhole _ h) (by decide)
    · obtain ⟨rest, rfl⟩ := List.head?_eq_some_iff.mp hfirst
      exact drive_of_fixed (hparts first List.mem_cons_self) hdrive hpath hhost
  · rintro ⟨hdots, hdrive⟩
    obtain ⟨first, rest, rfl⟩ := List.exists_cons_of_ne_nil hsome
    have hfirst : segmentText .file [] first.toList = first :=
      segmentText_first (hparts first List.mem_cons_self) fun hletter =>
        (hdrive first rfl hletter).1
    have hwalk : path = first :: rest := (walk_file hparts hdots).trans (by rw [hfirst])
    rw [hwalk, dropLeadingEmpty_rooted hrooted, startsWithDrive_cons]
    refine ⟨rfl, ?_⟩
    split
    · next hletter => exact (hdrive first rfl hletter).2.symm
    · rfl

theorem Proper.settled_iff {u : Url} (h : u.Proper) : u.settled = u ↔ u.Settled := by
  obtain ⟨scheme, authority, path, query, fragment⟩ := u
  have hbody := h.body
  simp only at hbody
  cases hbody with
  | bare hkind =>
      refine ⟨fun _ hfile => ?_, fun _ => rfl⟩
      cases hkind.symm.trans (schemeKind_eq_file.mpr hfile)
  | @file host parts hscheme hhost hparts hrooted =>
      subst hscheme
      have hiff := @file_settled_iff host parts hparts hrooted
      have hhost : ∀ other : String, Authority.ofHost other = .ofHost host ↔ other = host :=
        fun other => ⟨fun h => congrArg Authority.host h, fun h => h ▸ rfl⟩
      have hsettled : Settled ⟨"file", some (.ofHost host), .segments parts, query, fragment⟩ ↔
          ".." ∉ parts ∧ ∀ first ∈ parts.head?, isDriveLetter first.toList = true →
            first.toList.getLast? = some ':' ∧ host = "" := by
        simp only [Settled, Path.parts, host?, Option.map_some, Option.some.injEq, true_implies]
        rfl
      rw [hsettled]
      refine .trans ?_ hiff
      simp only [settled, if_true, host?, Option.map_some, Option.getD_some, Url.mk.injEq,
        Option.some.injEq, hhost, Path.segments.injEq, true_and, and_true]
      exact and_comm
  | named hkind =>
      have hfile : scheme ≠ "file" := fun h => hkind (schemeKind_eq_file.mpr h)
      exact ⟨fun _ h => absurd h hfile, fun _ => if_neg hfile⟩
  | unnamed hkind =>
      have hfile : scheme ≠ "file" := fun h => by
        cases hkind.symm.trans (schemeKind_eq_file.mpr h)
      exact ⟨fun _ h => absurd h hfile, fun _ => if_neg hfile⟩

end Url

namespace Reference

theorem base_proper (parent : Option String) (origin : String) : (base parent origin).Proper := by
  have hread : ∀ named, ((Url.parse? named).getD (Url.ofPathText origin)).Proper := by
    intro named
    cases hread : Url.parse? named with
    | none => exact Url.ofPath_proper _
    | some u => exact Url.parse?_proper hread
  exact hread _

theorem resolve?_proper {reference origin : String} {parent : Option String} {u : Url}
    (h : resolve? reference parent origin = some u) : u.Proper := by
  unfold resolve? at h
  split at h
  · next hread =>
      obtain rfl := Option.some.inj h
      exact Url.parse?_proper hread
  · exact Url.join?_proper (base_proper parent origin) h

/-- The text of a proper URL means the settled URL, whoever reads it. -/
theorem resolve?_render {u : Url} (h : u.Proper) (parent : Option String) (origin : String) :
    resolve? u.render parent origin = some u.settled := by
  rw [resolve?, h.parse?_render]

end Reference

/-- What a reference means is what the text of its meaning means, exactly if this is settled. So
the URL that a host asks to be loaded is read as the one that an include would fetch. -/
theorem meaning_lasts_iff {reference origin : String} {parent : Option String} {u : Url}
    (h : Reference.resolve? reference parent origin = some u) :
    ((∀ parent origin, Reference.resolve? u.render parent origin = some u) ↔ u.Settled) ∧
      ∀ (w : World) (key : Nat), (w.host key).parent = parent →
        (w.host key).script.origin = origin →
          (w.resolveAll key [reference]).1 = [u] ∧ (w.isStopping key = false →
            w.load key reference = w.publish key (.loadScriptRequest u.render false) .script) := by
  have hproper := Reference.resolve?_proper h
  refine ⟨?_, fun w key hparent horigin => ?_⟩
  · rw [← hproper.settled_iff]
    refine ⟨fun hlasts => ?_, fun hsettled parent origin => ?_⟩
    · exact Option.some.inj ((Reference.resolve?_render hproper none "").symm.trans (hlasts _ _))
    · rw [Reference.resolve?_render hproper, hsettled]
  · have hmeans : (w.host key).resolve? reference = some u := by
      rw [Host.resolve?, hparent, horigin, h]
    refine ⟨?_, fun hlive => ?_⟩
    · simp [World.resolveAll, hmeans]
    · simp [World.load, hlive, hmeans]

theorem meaning_lasts_of_sibling :
    let u : Url := ⟨"file", some (.ofHost ""), .segments ["srv", "lib", "%C3%A9%20b.js"],
      some "v=1", none⟩
    Reference.resolve? "lib/é b.js?v=1" none "/srv/main.js" = some u ∧
      ∀ parent origin, Reference.resolve? u.render parent origin = some u := by
  intro u
  have hmeans : Reference.resolve? "lib/é b.js?v=1" none "/srv/main.js" = some u := by
    decide +kernel
  exact ⟨hmeans, (meaning_lasts_iff hmeans).1.mpr (by decide)⟩

/-- A local path keeps its dots, but the text of its URL is read without them. -/
theorem dots_are_carried_out :
    ¬ ∀ (reference origin : String) (parent : Option String) (u : Url),
      Reference.resolve? reference parent origin = some u →
        ∀ parent origin, Reference.resolve? u.render parent origin = some u := by
  intro hlasts
  have hagain := hlasts "x" "/a/../b" none
    ⟨"file", some (.ofHost ""), .segments ["a", "..", "x"], none, none⟩ (by decide +kernel) none ""
  exact absurd hagain (by decide +kernel)

end TickHost
