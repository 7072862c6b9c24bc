import TickHost.Proofs.Includes
import TickHost.Proofs.Paths
import TickHost.Proofs.References

/-!
A local path is written as a URL and read back as a path, with the same names whatever their
characters are. But a URL takes some names for drive letters, a letter with a colon or a bar: a path
that ends like one is read back with a slash at its end, a bar in the first name becomes a colon,
and two dots do not lead back over such a name. Every other path leads to its own file.
-/

namespace TickHost

open Utf8 Text World Machine

namespace Path

/-- A name that a URL takes for a drive letter. -/
def isDrive (name : Bytes) : Bool :=
  Url.isDriveLetter (name.map fun b => Char.ofNat b.toNat)

/-- Whether names lead to the same place in a URL as on a disk: two dots never lead back over a
drive letter, and no drive letter at the root is written with a bar. -/
def climbsFreely : List Bytes → List Bytes → Bool
  | _, [] => true
  | place, name :: rest =>
      if name = dotDot then !place.getLast?.any isDrive && climbsFreely place.dropLast rest
      else (!place.isEmpty || !isDrive name || name.getLast? = some 0x3a) &&
        climbsFreely (place ++ [name]) rest

/-- A path that its URL leads back to. -/
structure Straight (path : Bytes) : Prop where
  last : Url.endsAsDrive path = false
  free : climbsFreely [] (names path) = true

end Path

open TickHost.Path

namespace Url

variable {name : Bytes} {ns done : List Bytes} {path : Bytes}

/-! ### Names as segments -/

theorem isDrive_of_text (h : isDriveLetter (nameText name).toList = true) : ∃ letter mark,
    (nameText name).toList = [letter, mark] ∧ isDrive name = true ∧
      name.getLast? = some (UInt8.ofNat mark.toNat) := by
  obtain ⟨letter, mark, htext, hletter, hmark⟩ := isDriveLetter_iff.mp h
  have hrange := alphanum_range (Bool.or_eq_true_iff.mpr (.inl hletter))
  have hsmall : letter.toNat < 128 := by omega
  have hmarks : mark.toNat < 128 ∧ UInt8.ofNat mark.toNat ≠ 0x25 := by
    rcases hmark with rfl | rfl <;> decide
  have hsign : UInt8.ofNat letter.toNat ≠ 0x25 := by
    intro h
    have hvalue := congrArg UInt8.toNat h
    rw [toNat_ofNat (by omega)] at hvalue
    exact absurd hvalue (by simp; omega)
  have hbytes : name = [UInt8.ofNat letter.toNat, UInt8.ofNat mark.toNat] := by
    have hencode : encode [letter, mark] = [UInt8.ofNat letter.toNat, UInt8.ofNat mark.toNat] := by
      simp [encode, encodeChar_ascii hsmall, encodeChar_ascii hmarks.1]
    rw [name_of_text htext, hencode, percentDecode_eq_self]
    intro b hb
    simp only [List.mem_cons, List.not_mem_nil, or_false] at hb
    rcases hb with rfl | rfl
    · exact hsign
    · exact hmarks.2
  refine ⟨letter, mark, htext, ?_, by rw [hbytes]; rfl⟩
  rw [hbytes, isDrive, List.map_cons, List.map_cons, List.map_nil, toNat_ofNat (by omega),
    toNat_ofNat (by omega), Char.ofNat_toNat, Char.ofNat_toNat, ← htext]
  exact h

theorem isDriveLetter_nameText (h : isDrive name = false) :
    isDriveLetter (nameText name).toList = false := by
  rw [Bool.eq_false_iff]
  intro hdrive
  obtain ⟨-, -, -, htrue, -⟩ := isDrive_of_text hdrive
  exact Bool.false_ne_true (h.symm.trans htrue)

theorem nameText_dotDot : nameText dotDot = ".." := by decide

theorem eq_dotDot_of_text (h : nameText name = "..") : name = dotDot := by
  rw [name_of_text (congrArg String.toList h)]
  decide +kernel

theorem isDoubleDot_nameText (hname : IsName name) (hdots : name ≠ dotDot) :
    isDoubleDot (nameText name).toList = false := by
  rw [Bool.eq_false_iff]
  exact fun hdouble => hdots (eq_dotDot_of_text ((isSegment_name hname.other).double hdouble).2)

theorem leave_names (hlast : done.getLast?.any isDrive = false) :
    leave (done.map nameText) = done.dropLast.map nameText := by
  rcases List.eq_nil_or_concat done with rfl | ⟨before, last, rfl⟩
  · rfl
  · rw [List.concat_eq_append, List.getLast?_concat, Option.any_some] at hlast
    rw [List.concat_eq_append, leave, List.map_append, List.map_singleton, List.getLast?_concat]
    simp [isDriveLetter_nameText hlast]

/-- A drive letter with a colon stays as it is, and so does every other name. -/
theorem segmentText_nameText (hname : IsName name)
    (hdrive : done = [] → isDrive name = true → name.getLast? = some 0x3a) :
    segmentText .file (done.map nameText) (nameText name).toList = nameText name := by
  cases hletter : isDriveLetter (nameText name).toList with
  | false => exact segmentText_eq_self (isSegment_name hname.other) fun _ _ => hletter
  | true =>
      cases done with
      | cons first rest =>
          refine segmentText_eq_self (isSegment_name hname.other) fun _ hnil => ?_
          cases hnil
      | nil =>
          obtain ⟨letter, mark, htext, htrue, hlast⟩ := isDrive_of_text hletter
          have hbyte := Option.some.inj (hlast.symm.trans (hdrive rfl htrue))
          obtain ⟨letter', mark', heq, halpha, hmark⟩ := isDriveLetter_iff.mp hletter
          cases htext.symm.trans heq
          have hcolon : mark = ':' := by
            rcases hmark with rfl | rfl
            · rfl
            · cases hbyte
          subst hcolon
          rw [htext, List.map_nil, segmentText_drive halpha hmark, ofList_eq_iff, htext]

/-- The dots of a path are carried out in its URL as they are on a disk. -/
theorem walk_names (hns : ∀ name ∈ ns, IsName name) (hfree : climbsFreely done ns = true)
    (hlast : ns.getLast? ≠ some dotDot) :
    walk .file (done.map nameText) ((ns.map nameText).map String.toList) =
      (climb done ns).map nameText := by
  induction ns generalizing done with
  | nil => rfl
  | cons name ns ih =>
      have hname := hns name List.mem_cons_self
      have hrest : ∀ name ∈ ns, IsName name := fun name hmem =>
        hns name (List.mem_cons_of_mem _ hmem)
      have hlater : ns ≠ [] → ns.getLast? ≠ some dotDot := fun hmore => by
        obtain ⟨second, rest, rfl⟩ := List.exists_cons_of_ne_nil hmore
        rwa [List.getLast?_cons_cons] at hlast
      rw [List.map_cons, List.map_cons, walk, climb]
      rw [climbsFreely] at hfree
      by_cases hdots : name = dotDot
      · have hmore : ns ≠ [] := by
          rintro rfl
          exact hlast (by rw [hdots]; rfl)
        have hempty : ((ns.map nameText).map String.toList).isEmpty = false := by simpa using hmore
        rw [if_pos hdots, Bool.and_eq_true, Bool.not_eq_true'] at hfree
        rw [hdots, nameText_dotDot, if_pos (by decide), hempty, if_neg Bool.false_ne_true,
          if_pos rfl, leave_names hfree.1]
        exact ih hrest hfree.2 (hlater hmore)
      · rw [if_neg hdots, Bool.and_eq_true] at hfree
        have hsegment := isSegment_name hname.other
        have htext := @segmentText_nameText name done hname fun hroot hdrive => by
          simpa [hroot, hdrive] using hfree.1
        have hadd : done.map nameText ++ [nameText name] = (done ++ [name]).map nameText := by simp
        rw [if_neg (by simp [isDoubleDot_nameText hname hdots]), if_neg (by simp [hsegment.single]),
          if_neg hdots, htext, hadd]
        refine ih hrest hfree.2 ?_
        by_cases hmore : ns = []
        · simp [hmore]
        · exact hlater hmore

/-- The file URL of some names. -/
def ofNames (ns : List Bytes) : Url :=
  ⟨"file", some (.ofHost ""), .segments (ns.map nameText), none, none⟩

theorem ofPath_eq_ofNames (hsome : names path ≠ []) : ofPath path = ofNames (names path) := by
  have hempty : ((names path).map nameText).isEmpty = false := by simpa using hsome
  rw [ofPath_eq]
  simp only [hempty, Bool.false_eq_true, if_false]
  rfl

/-- The names come back, and a slash with them if they end like a drive. -/
theorem toPath?_ofNames (ns : List Bytes) : (ofNames ns).toPath? =
    some (if endsAsDrive (Path.ofNames ns) then Path.ofNames ns ++ [slash]
      else Path.ofNames ns) := by
  have hnames : (ns.map nameText).flatMap (fun part => slash :: percentDecode (ofString part)) =
      Path.ofNames ns := by
    simp [Path.ofNames, List.flatMap_map, percentDecode_name]
  simp only [toPath?, ofNames, host?, Option.map_some, Authority.ofHost, or_true, true_or, if_true,
    hnames]

theorem dropLeadingEmpty_names (hns : ∀ name ∈ ns, IsName name) (hsome : ns ≠ []) :
    dropLeadingEmpty (ns.map nameText) = ns.map nameText := by
  refine dropLeadingEmpty_rooted (.inr ⟨by simpa using hsome, fun hvoid => ?_⟩)
  obtain ⟨first, rest, rfl⟩ := List.exists_cons_of_ne_nil hsome
  have htext : nameText first = "" := Option.some.inj hvoid
  exact (hns first List.mem_cons_self).some (name_of_text (by rw [htext]))

/-- What the text of the URL of a straight path is read as: the place that the path climbs to. -/
theorem settled_of_straight (hstraight : Straight path) (hsome : climb [] (names path) ≠ [])
    (hlast : (names path).getLast? ≠ some dotDot) :
    (ofPath path).settled = ofNames (climb [] (names path)) := by
  have hnames : names path ≠ [] := by
    intro hnil
    rw [hnil] at hsome
    exact hsome rfl
  have hwalk := @walk_names (names path) [] (fun _ => isName_of_mem) hstraight.free hlast
  have hclimb : ∀ name ∈ climb [] (names path), IsName name := fun name hname =>
    isName_of_mem ((climb_sublist [] (names path)).subset hname)
  rw [List.map_nil] at hwalk
  rw [ofPath_eq_ofNames hnames]
  simp only [ofNames, settled, if_true, hwalk, dropLeadingEmpty_names hclimb hsome, host?,
    Option.map_some, Option.getD_some, Authority.ofHost, ite_self]

end Url

/-! ### Reading -/

/-- The path that the URL of a path is read back as. -/
def Path.readBack (path : Bytes) : Bytes :=
  if Url.endsAsDrive path then ofNames (names path) ++ [slash] else ofNames (names path)

section

variable {d : Disk} {path : Bytes} {text : String}

theorem endsAsDrive_names (habsolute : isAbsolute path = true)
    (hends : endsAsDirectory path = false) :
    Url.endsAsDrive (ofNames (names path)) = Url.endsAsDrive path := by
  obtain ⟨before, ns, last, hlast, hpath, hnames⟩ := last_of_absolute habsolute hends
  rw [hnames, ofNames_concat, hpath, endsAsDrive_append _ hlast.some,
    endsAsDrive_append _ hlast.some]

theorem endsAsDrive_climb (habsolute : isAbsolute path = true)
    (hends : endsAsDirectory path = false) (hdots : (names path).getLast? ≠ some dotDot) :
    Url.endsAsDrive (ofNames (climb [] (names path))) = Url.endsAsDrive path := by
  obtain ⟨before, ns, last, hlast, hpath, hnames⟩ := last_of_absolute habsolute hends
  have hother : last ≠ dotDot := by
    rintro rfl
    exact hdots (by rw [hnames, List.getLast?_concat])
  rw [hnames, climb_concat hother, ofNames_concat, hpath, endsAsDrive_append _ hlast.some,
    endsAsDrive_append _ hlast.some]

theorem toPath?_ofPath (habsolute : isAbsolute path = true)
    (hends : endsAsDirectory path = false) : (Url.ofPath path).toPath? = some (readBack path) := by
  obtain ⟨before, ns, last, -, -, hnames⟩ := last_of_absolute habsolute hends
  rw [Url.ofPath_eq_ofNames (by simp [hnames]), Url.toPath?_ofNames,
    endsAsDrive_names habsolute hends]
  rfl

theorem Disk.not_directory_of_read (hread : d.readText path = .ok text) :
    endsAsDirectory path = false := by
  obtain ⟨content, hfind, -⟩ := Disk.readText_eq_ok_iff.mp hread
  exact (Disk.find_file hfind).2.1

/-- The URL of a path is read as the file that the path leads to, unless the path ends like a
drive. -/
theorem Disk.readText_readBack (habsolute : isAbsolute path = true)
    (hread : d.readText path = .ok text) : (d.readText (readBack path)).toOption =
      if Url.endsAsDrive path then none else some text := by
  obtain ⟨content, hfind, htext⟩ := Disk.readText_eq_ok_iff.mp hread
  obtain ⟨-, hnames⟩ := Disk.find_names habsolute hfind
  unfold readBack
  split
  · cases hdirectory : d.readText (ofNames (names path) ++ [slash]) with
    | error fault => rfl
    | ok text' =>
        obtain ⟨content', hfind', -⟩ := Disk.readText_eq_ok_iff.mp hdirectory
        refine absurd hfind' (Disk.find_directory (endsAsDirectory_slash ?_) content')
        exact fun name hname => (isName_of_mem hname).whole
  · rw [Disk.readText_eq_ok_iff.mpr ⟨content, hnames, htext⟩]
    rfl

/-- The text of the URL of a straight path is read as a URL of the same file. -/
theorem Disk.readUrl_settled (habsolute : isAbsolute path = true) (hstraight : Straight path)
    (hdots : (names path).getLast? ≠ some dotDot) (hread : d.readText path = .ok text) :
    d.readUrl (Url.ofPath path).settled = .ok text := by
  obtain ⟨content, hfind, htext⟩ := Disk.readText_eq_ok_iff.mp hread
  obtain ⟨hsome, hclimb⟩ := Disk.find_climb habsolute hfind
  have hpath : (Url.ofPath path).settled.filePath = .ok (ofNames (climb [] (names path))) := by
    rw [Url.settled_of_straight hstraight hsome hdots, Url.filePath, if_neg (by simp [Url.ofNames]),
      Url.toPath?_ofNames, endsAsDrive_climb habsolute (not_directory_of_read hread) hdots,
      hstraight.last]
    rfl
  rw [Disk.readUrl, hpath]
  simp only [Disk.readText_eq_ok_iff.mpr ⟨content, hclimb, htext⟩]

end

/-! ### Loading -/

theorem head_of_absolute {p : String} (habsolute : isAbsolute (ofString p) = true) :
    ∃ cs, p.toList = '/' :: cs := by
  have hhead : (encode p.toList).head? = some slash := of_decide_eq_true habsolute
  cases hp : p.toList with
  | nil =>
      rw [hp] at hhead
      cases hhead
  | cons c cs =>
      rw [hp, encode_cons] at hhead
      by_cases hascii : c.toNat < 0x80
      · rw [encodeChar_ascii hascii] at hhead
        have hvalue : UInt8.ofNat c.toNat = slash := Option.some.inj hhead
        have hslash : c.toNat = 0x2f := by
          rw [← toNat_ofNat (by omega : c.toNat < 256), hvalue]
          rfl
        have hc : c = '/' := Char.toNat_inj.mp hslash
        exact ⟨cs, by rw [hc]⟩
      · obtain ⟨b, tail, hbytes, -⟩ := next_encodeChar c []
        have hwide := wide_of_mem_encodeChar (Nat.not_lt.mp hascii) (hbytes ▸ List.mem_cons_self)
        rw [hbytes] at hhead
        obtain rfl : b = slash := Option.some.inj hhead
        exact absurd hwide (by decide)

/-- An absolute path names no scheme. -/
theorem parse?_path {p : String} (habsolute : isAbsolute (ofString p) = true) :
    Url.parse? p = none := by
  obtain ⟨cs, htext⟩ := head_of_absolute habsolute
  obtain ⟨more, hread⟩ := Url.readable_head htext (by decide)
  have hscheme : Url.splitScheme? ('/' :: more) = none := by
    unfold Url.splitScheme?
    rw [splitFirst?, if_neg (by decide)]
    cases splitFirst? ':' more <;> rfl
  rw [Url.parse?, hread, hscheme, Option.bind_none]

theorem ofSource_path {p : String} (habsolute : isAbsolute (ofString p) = true) :
    Url.ofSource p = Url.ofPathText p := by
  rw [Url.ofSource, parse?_path habsolute]

/-- What comes of loading a local path whose file has a text: the text and its label are the source
of the host, which reports so. A path that ends like a drive is missed. -/
structure World.LoadsPath (w : World) (key : Nat) (p text : String) : Prop where
  done : (w.loadUrl key p).2 = .done
  script : ((w.loadUrl key p).1.host key).script =
    ⟨if Url.endsAsDrive (ofString p) then (w.host key).script.contents else text,
      String.ofList (decodeLossy (readBack (ofString p)))⟩
  announced : (w.host key).Says ((w.loadUrl key p).1.host key) ((w.host key).utterance w.clock
    (.ofLoad (String.ofList (decodeLossy (readBack (ofString p))))
      (if Url.endsAsDrive (ofString p) then none else some text)) .loader)

theorem World.loadsPath {w : World} {key : Nat} {p text : String}
    (habsolute : isAbsolute (ofString p) = true) (hidle : (w.host key).running = false)
    (hread : w.disk.readText (ofString p) = .ok text) : w.LoadsPath key p text := by
  have hpath : (Url.ofPathText p).toPath? = some (readBack (ofString p)) :=
    toPath?_ofPath habsolute (Disk.not_directory_of_read hread)
  have hfile : (Url.ofPathText p).scheme = "file" := rfl
  have hlabel : (HostDeed.loadUrl p).label? =
      some (String.ofList (decodeLossy (readBack (ofString p)))) := by
    simp only [HostDeed.label?, ofSource_path habsolute, hfile, if_true, hpath, Option.map_some,
      Option.getD_some]
  have htext : (HostDeed.loadUrl p).text? w key =
      if Url.endsAsDrive (ofString p) then none else some text := by
    simp only [HostDeed.text?, ofSource_path habsolute, hfile, if_true, hpath, Option.bind_some]
    exact Disk.readText_readBack habsolute hread
  have hprompt : w.defers key p = false := by
    simp [World.defers, ofSource_path habsolute, hfile]
  refine ⟨?_, ?_, ?_⟩
  · simp only [World.loadUrl_eq w key hidle, ofSource_path habsolute, hfile, if_true]
  · rw [World.loadUrl_script w key hidle p hlabel, htext]
    split <;> rfl
  · have hsaid := World.loadUrl_says w key hidle p hlabel
    rw [hprompt, if_neg Bool.false_ne_true, htext] at hsaid
    exact hsaid

/-! ### Including -/

/-- What a fetcher that reads the disk has for a URL. -/
theorem Fetcher.results_of_file {f : Fetcher} (hdisk : f.fromDisk = true) {d : Disk}
    {remote : Table String} {url : Url} {text : String} (hread : d.readUrl url = .ok text) :
    (f.results d remote [url]).treatment url = .evaluated text url.render 1 := by
  refine FetchResults.treatment_ok ?_
  simp [Fetcher.results, FetchResults.collect, Fetcher.find?, hdisk, hread, FetchResults.put,
    FetchResults.get?]

namespace World

variable {w : World} {key : Nat} {urls : List Url} {purpose : FetchPurpose} {f : Fetcher}

/-- A fetch is kept with the fetcher of its host. -/
theorem fetcher_of_kept (hfetcher : (w.host key).fetcher = some f) {kept : KeptFetch}
    (h : (w.fetch key urls purpose).fetches = w.fetches ++ [kept]) : kept.fetcher = f := by
  have hanswer : ∀ (w' : World) (results : FetchResults),
      (w'.answerFetch key urls purpose results).fetches = w'.fetches :=
    fun w' results => answerFetch_keeps (a := .fetches) w' key urls purpose results nofun
  have hmore : w.fetches ≠ w.fetches ++ [kept] := by simp
  simp only [fetch, hfetcher] at h
  split at h
  · exact absurd h hmore
  split at h
  · exact congrArg KeptFetch.fetcher (List.cons.inj (List.append_cancel_left h)).1.symm
  · rw [hanswer] at h
    exact absurd h hmore

theorem resolveAll_singleton {reference : String} {url : Url}
    (hmeans : (w.host key).resolve? reference = some url) :
    w.resolveAll key [reference] = ([url], w) := by
  simp [resolveAll, hmeans]

end World

/-- A script that waits gets what the fetcher has at once. -/
theorem Task.react_includes_waits {w : World} {t : Task} {i : Include}
    (h : t.includes? w = some i) (o : Outcome) (hopen : w.isStopping i.host = false)
    (hwaits : i.callback = none) :
    ∃ tail, (react w o t).next = .batch i.host (w.resolveAll i.host i.references).1
      ((w.resolveAll i.host i.references).2.fetchNow i.host
        (w.resolveAll i.host i.references).1).1 :: tail := by
  rcases includes?_cases h with ⟨scope, named, wanted, rest, rfl, hactor, hcallback⟩ |
    ⟨origin, line, text, rest, rfl, hread, -⟩ | ⟨function, args, rfl, hdirectives, hread, -⟩
  · rw [react_inScript o hactor]
    cases wanted with
    | none =>
        simp only [startScriptDeed, hopen, Bool.false_eq_true, if_false]
        exact ⟨_, rfl⟩
    | some wanted => cases hwaits.symm.trans hcallback
  · simp only [react, runDirectives, runDirective_include hread hopen]
    exact ⟨_, rfl⟩
  · simp only [react, callBack, hdirectives, if_true, runDirective_include hread hopen]
    exact ⟨_, rfl⟩

/-- The batch of an include of step `n` is the text that a file keeps until the batch comes up. Then
it is evaluated under its URL, unless a stop-all call begins before. -/
def EvaluatesFile (σ : Nat → Machine) (n : Nat) (i : Include) (path : Bytes) (url : Url)
    (text : String) : Prop :=
  ∀ a, Arrives σ n i a →
    (∀ k, n ≤ k → k < a → (σ k).world.disk.readText path = .ok text) →
    ∃ results tail, (σ a).agenda = .batch i.host [url] results :: tail ∧
      results.treatment url = .evaluated text url.render 1 ∧
      ∀ m, a ≤ m → (σ m).world.crashed = false →
        (∀ k, n ≤ k → k < m → ¬ StopsAll σ ((σ n).world.host i.host).registry k) →
        Proceeds σ i.host [url] results tail a m

namespace Behavior

variable {σ : Nat → Machine} (hσ : Behavior σ) {n a m : Nat} {i : Include}
  (hincludes : Includes σ n i) (hopen : (σ n).world.isStopping i.host = false)

include hσ hincludes hopen

/-- A batch goes on for as long as nothing is stopped. -/
theorem proceeds_of_quiet (hna : n ≤ a) (ham : a ≤ m) (hcrashed : (σ m).world.crashed = false)
    {urls : List Url} {results : FetchResults} {tail : List Task}
    (hagenda : (σ a).agenda = .batch i.host urls results :: tail)
    (hquiet : ∀ k, n ≤ k → k < m → ¬ StopsAll σ ((σ n).world.host i.host).registry k) :
    Proceeds σ i.host urls results tail a m := by
  refine (hσ.onward a).proceeds ham hagenda hcrashed fun k hak hkm => ?_
  have hbefore : ∀ j, n ≤ j → j < k → ¬ StopsAll σ ((σ n).world.host i.host).registry j :=
    fun j hnj hjk => hquiet j hnj (Nat.lt_trans hjk hkm)
  exact ((hσ.onward n).undisturbed (Nat.le_trans hna hak) (hσ.has_of_includes hincludes) hopen
    hbefore).2.1

variable {reference text : String} {url : Url} {f : Fetcher}
  (hreference : i.references = [reference])
  (hmeans : ((σ n).world.host i.host).resolve? reference = some url)
  (hfetcher : ((σ n).world.host i.host).fetcher = some f)

include hreference hmeans hfetcher

/-- The results with which the batch of one URL comes up: those of the fetcher of its host. -/
theorem results_of_arrives (hsilent : f.silent = false) (harrives : Arrives σ n i a) :
    ∃ c tail, n ≤ c ∧ c < a ∧ (σ a).agenda = .batch i.host [url]
      (f.results (σ c).world.disk (σ c).world.remote [url]) :: tail := by
  have hurls : i.urls σ n = [url] := by
    simp [Include.urls, Host.resolved, hreference, hmeans]
  have hresolve : (σ n).world.resolveAll i.host i.references = ([url], (σ n).world) := by
    rw [hreference]
    exact resolveAll_singleton hmeans
  cases hcallback : i.callback with
  | none =>
      rw [Arrives, hcallback] at harrives
      subst harrives
      have hkey := hσ.has_of_includes hincludes
      obtain ⟨t, rest, hexec, ht⟩ := hincludes
      obtain ⟨tail, hnext⟩ := Task.react_includes_waits ht (σ n).outcome hopen hcallback
      obtain ⟨hmoves, -⟩ := Task.react_includes (o := (σ n).outcome) ht hopen hkey
      have hcrashed := hmoves.crashed
      rw [← world_after hexec, (hσ.sound n).uncrashed hexec.agenda] at hcrashed
      rw [hresolve] at hnext
      simp only [fetchNow, hfetcher, Fetcher.resultsNow, hsilent, Bool.false_eq_true, if_false]
        at hnext
      refine ⟨n, tail ++ rest, Nat.le_refl n, Nat.lt_succ_self n, ?_⟩
      rw [after hexec hcrashed, hnext]
      rfl
  | some callback =>
      rw [Arrives, hcallback] at harrives
      obtain ⟨c, d, results, rfl, hreplies, hcd, htakes⟩ := harrives
      obtain ⟨rest, -, hagenda⟩ :=
        hσ.batch_of_takes hincludes hopen hcallback hreplies hcd htakes
      rw [hurls] at hagenda
      have hnc := hσ.le_of_replies hreplies
      suffices hresults : results = f.results (σ c).world.disk (σ c).world.remote [url] from
        ⟨c, _, hnc, Nat.lt_succ_of_lt hcd, hresults ▸ hagenda⟩
      rcases hreplies with ⟨rfl, hnow⟩ | ⟨index, kept, hkept, -, rfl⟩
      · simp only [repliesNow?, hfetcher, hurls] at hnow
        split at hnow
        · cases hnow
        · exact (Option.some.inj hnow).symm
      · obtain ⟨-, hsame, -⟩ := hσ.kept_of_includes hincludes hopen hcallback hkept
        obtain ⟨entry, hworld⟩ := hσ.world_of_includes hincludes hopen hcallback
        have hfirst := hσ.kept_first hkept
        rw [hworld, hresolve] at hfirst
        rw [hsame, hurls, fetcher_of_kept hfetcher hfirst]

end Behavior

/-- A local path leads to its file. A load from it takes the text of the file, unless the path ends
like a drive. The URL of a straight path is included as this text by every host that reads files. -/
theorem local_path_reaches_file {p text : String} (habsolute : isAbsolute (ofString p) = true)
    (hdots : (names (ofString p)).getLast? ≠ some dotDot) :
    (∀ (w : World) (key : Nat), (w.host key).running = false →
      w.disk.readText (ofString p) = .ok text → w.LoadsPath key p text) ∧
    (Straight (ofString p) → ∀ (σ : Nat → Machine), Behavior σ → ∀ (n : Nat) (i : Include)
      (f : Fetcher), Includes σ n i → i.references = [(Url.ofPathText p).render] →
      (σ n).world.isStopping i.host = false → ((σ n).world.host i.host).fetcher = some f →
      f.fromDisk = true → f.silent = false →
        EvaluatesFile σ n i (ofString p) (Url.ofPathText p).settled text) := by
  refine ⟨fun w key hidle hread => World.loadsPath habsolute hidle hread, ?_⟩
  intro hstraight σ hσ n i f hincludes hreference hopen hfetcher hdisk hsilent a harrives hread
  have hmeans : ((σ n).world.host i.host).resolve? (Url.ofPathText p).render =
      some (Url.ofPathText p).settled :=
    Reference.resolve?_render (Url.ofPath_proper _) _ _
  obtain ⟨c, tail, hnc, hca, hagenda⟩ :=
    hσ.results_of_arrives hincludes hopen hreference hmeans hfetcher hsilent harrives
  have hfile := Disk.readUrl_settled habsolute hstraight hdots (hread c hnc hca)
  refine ⟨_, tail, hagenda, Fetcher.results_of_file hdisk hfile, fun m ham hcrashed hquiet => ?_⟩
  exact hσ.proceeds_of_quiet hincludes hopen (hσ.le_of_arrives harrives) ham hcrashed hagenda hquiet

/-- A script includes a file under its URL. -/
def Machine.localTour (names : List String) (url : String) : Machine :=
  .start (.start ⟨[([ofString "srv"], .directory), (names.map ofString, .file (ofString "text"))]⟩
    [] [] [] default) [.build ⟨"h", "body", "h.js", none, .standard, "", none,
      some ⟨true, false, false, false⟩, false, none, false, 1⟩ [],
    .inScript (some "h") (.includeAll [url] none)]

/-- Signs that mean something in a URL are ordinary in a path. -/
theorem odd_names_reach_file :
    let p := "/srv/50% é?#c:d.js"
    let σ := (Machine.localTour ["srv", "50% é?#c:d.js"] (Url.ofPathText p).render).trace
    (((σ 1).world.loadUrl 0 p).1.host 0).script = ⟨"text", p⟩ ∧
      ∃ results tail j, Log (Treats σ 0 results tail) 2 (j + 1)
        [.evaluated "text" "file:///srv/50%25%20%C3%A9%3F%23c:d.js" 1] := by
  intro p σ
  have hread : (σ 1).world.disk.readText (ofString p) = .ok "text" :=
    Disk.readText_of_find (by decide +kernel)
  obtain ⟨hloads, hincluded⟩ := @local_path_reaches_file p "text" (by decide +kernel)
    (by decide +kernel)
  have hstraight : Straight (ofString p) := ⟨by decide +kernel, by decide +kernel⟩
  have hloaded := (hloads (σ 1).world 0 (by decide +kernel) hread).script
  refine ⟨hloaded.trans (by decide +kernel), ?_⟩
  have hincludes : Includes σ 1 ⟨0, [(Url.ofPathText p).render], none⟩ :=
    ⟨_, _, ⟨rfl, trace_succ _ _⟩, rfl⟩
  obtain ⟨results, tail, hagenda, htreatment, hproceeds⟩ := hincluded hstraight σ
    (trace_behavior ..) 1 _ _ hincludes rfl (by decide +kernel) rfl rfl rfl 2 rfl (by
      intro k hk hlast
      obtain rfl : k = 1 := by omega
      exact hread)
  have hquiet : ∀ k < 40, (σ k).agenda.head?.bind Task.stopsAll? = none := by decide +kernel
  cases hproceeds 40 (by decide) (by decide +kernel) fun k _ hk =>
      not_stopsAll_of_agenda (hquiet k hk) with
  | underway treated next left hlist hatmost hwaits hlog =>
      have hnothing : (σ 40).agenda = [] := by
        rw [← List.isEmpty_iff]
        decide +kernel
      rw [hnothing] at hwaits
      cases List.suffix_nil.mp hwaits
  | through j haj hj hends hlog =>
      have hrender : (Url.ofPathText p).settled.render =
          "file:///srv/50%25%20%C3%A9%3F%23c:d.js" := by decide +kernel
      rw [List.map_singleton, htreatment, hrender] at hlog
      exact ⟨results, tail, j, hlog⟩

/-- A path that ends in a letter and a colon is read back as that of a directory. -/
theorem drive_is_missed :
    ¬ ∀ (w : World) (key : Nat) (p text : String), (w.host key).running = false →
      isAbsolute (ofString p) = true → (names (ofString p)).getLast? ≠ some dotDot →
      w.disk.readText (ofString p) = .ok text →
        ((w.loadUrl key p).1.host key).script.contents = text := by
  intro hreaches
  have hread := hreaches ((Machine.localTour ["srv", "a:"] "").trace 1).world 0 "/srv/a:" "text"
    (by decide +kernel) (by decide +kernel) (by decide +kernel)
    (Disk.readText_of_find (by decide +kernel))
  exact absurd hread (by decide +kernel)

end TickHost
