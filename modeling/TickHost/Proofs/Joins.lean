import TickHost.Proofs.Rendering

/-!
What the readers of URLs give is proper, whether a text names its scheme or is joined to a base
that is proper. Every part is encoded when it is read; a path that is continued from a base keeps
the segments of the base and only adds such as were read.
-/

namespace TickHost.Url

open Text

variable {kind : SchemeKind} {text : List Char} {p : Pieces}

/-! ### Schemes and blanks -/

theorem isUpper_toLower (c : Char) : c.toLower.isUpper = false := by
  rcases toLower_cases c with ⟨hupper, hvalue⟩ | ⟨hupper, hsame⟩
  · have hrange := isUpper_iff.mp hupper
    rw [Bool.eq_false_iff, ne_eq, isUpper_iff]
    omega
  · rw [hsame, hupper]

theorem toLower_toLower (c : Char) : c.toLower.toLower = c.toLower := by
  rcases toLower_cases c.toLower with ⟨hupper, -⟩ | ⟨-, hsame⟩
  · exact absurd ((isUpper_toLower c).symm.trans hupper) Bool.false_ne_true
  · exact hsame

theorem isAlpha_toLower {c : Char} (hc : c.isAlpha = true) : c.toLower.isAlpha = true := by
  rcases toLower_cases c with ⟨hupper, hvalue⟩ | ⟨-, hsame⟩
  · have hrange := isUpper_iff.mp hupper
    exact Bool.or_eq_true_iff.mpr (.inr (isLower_iff.mpr (by omega)))
  · rwa [hsame]

theorem isSchemeChar_toLower {c : Char} (hc : isSchemeChar c = true) :
    isSchemeChar c.toLower = true := by
  rcases toLower_cases c with ⟨hupper, -⟩ | ⟨-, hsame⟩
  · have halpha := isAlpha_toLower (Bool.or_eq_true_iff.mpr (.inl hupper))
    exact Bool.or_eq_true_iff.mpr (.inl (Bool.or_eq_true_iff.mpr (.inl halpha)))
  · rwa [hsame]

theorem isScheme_of_read {scheme : String} {rest : List Char}
    (h : splitScheme? text = some (scheme, rest)) :
    IsScheme scheme ∧ ∃ before, text = before ++ ':' :: rest := by
  unfold splitScheme? at h
  split at h
  · next name after hsplit =>
      split at h
      · next hname =>
          obtain ⟨rfl, rfl⟩ := Prod.mk.inj (Option.some.inj h)
          obtain ⟨hhead, hchars⟩ := Bool.and_eq_true_iff.mp hname
          have hchar : ∀ c ∈ name, isSchemeChar c = true := List.all_eq_true.mp hchars
          refine ⟨⟨?_, ?_, ?_⟩, name, (splitFirst?_eq_some_iff.mp hsplit).1⟩ <;>
            rw [String.toList_ofList]
          · cases name with
            | nil => cases hhead
            | cons c name => exact isAlpha_toLower hhead
          · rw [List.all_eq_true]
            intro c hc
            obtain ⟨d, hd, rfl⟩ := List.mem_map.mp hc
            exact isSchemeChar_toLower (hchar d hd)
          · rw [List.map_map]
            exact List.map_congr_left fun c _ => toLower_toLower c
      · cases h
  · cases h

/-- A text that does not start with a blank keeps its first character. -/
theorem readable_head {text : String} {c : Char} {cs : List Char} (htext : text.toList = c :: cs)
    (hc : isInk c = true) : ∃ more, readable text = c :: more := by
  have hblank : decide (c.toNat ≤ 0x20) = false := by
    simp only [isInk, Bool.and_eq_true, decide_eq_true_eq] at hc
    exact decide_eq_false (by omega)
  have hkept : decide (c ≠ '\t' ∧ c ≠ '\n' ∧ c ≠ '\r') = true := by
    rw [decide_eq_true_eq]
    refine ⟨?_, ?_, ?_⟩ <;> rintro rfl <;> exact absurd hc (by decide)
  have hends : ∀ ys : List Char, (ys ++ [c]).dropWhile (fun c => decide (c.toNat ≤ 0x20)) =
      ys.dropWhile (fun c => decide (c.toNat ≤ 0x20)) ++ [c] := by
    intro ys
    rw [List.dropWhile_append, List.dropWhile_cons_of_neg (by simp [hblank])]
    split
    · next hempty => rw [List.isEmpty_iff.mp hempty, List.nil_append]
    · rfl
  unfold readable
  simp only
  rw [htext, List.dropWhile_cons_of_neg (by simp [hblank]), List.reverse_cons, hends,
    List.reverse_append, List.reverse_singleton, List.singleton_append, List.filter_cons,
    if_pos hkept]
  exact ⟨_, rfl⟩

/-- What counts of a text does not end with a blank. -/
theorem getLast?_readable (text : String) : (readable text).getLast? ≠ some ' ' := by
  unfold readable
  simp only
  generalize htext : ((text.toList.dropWhile fun c => decide (c.toNat ≤ 0x20)).reverse.dropWhile
    fun c => decide (c.toNat ≤ 0x20)) = reversed
  cases reversed with
  | nil => simp
  | cons c reversed =>
      have hblank := List.head?_dropWhile_not (fun c : Char => decide (c.toNat ≤ 0x20))
        (text.toList.dropWhile fun c => decide (c.toNat ≤ 0x20)).reverse
      rw [htext, List.head?_cons] at hblank
      simp only [decide_eq_false_iff_not] at hblank
      have hkept : (decide (c ≠ '\t' ∧ c ≠ '\n' ∧ c ≠ '\r')) = true := by
        rw [decide_eq_true_eq]
        refine ⟨?_, ?_, ?_⟩ <;> rintro rfl <;> exact hblank (by decide)
      have hfilter : [c].filter (fun c => decide (c ≠ '\t' ∧ c ≠ '\n' ∧ c ≠ '\r')) = [c] :=
        List.filter_cons_of_pos hkept
      rw [List.reverse_cons, List.filter_append, hfilter, List.getLast?_concat]
      rintro ⟨rfl⟩
      exact hblank (by decide)

/-! ### Queries and fragments -/

theorem kept_queryText {q : String} (h : p.queryText kind = some q) :
    ∀ c ∈ q.toList, keptInQuery (kind != .other) c = true := by
  obtain ⟨text, -, rfl⟩ := Option.map_eq_some_iff.mp h
  rw [String.toList_ofList]
  exact fun c hc => kept_of_mem_percentEncode (admits_query _) hc

theorem kept_fragmentText {f : String} (h : p.fragmentText = some f) :
    ∀ c ∈ f.toList, keptInFragment c = true := by
  obtain ⟨text, -, rfl⟩ := Option.map_eq_some_iff.mp h
  rw [String.toList_ofList]
  exact fun c hc => kept_of_mem_percentEncode admits_fragment hc

/-- A URL with a path in segments is proper if its scheme and its body are. -/
theorem proper_of_segments {scheme : String} {a : Option Authority} {parts : List String}
    (hscheme : IsScheme scheme) (hbody : IsBody scheme a (.segments parts)) (p : Pieces) :
    Proper ⟨scheme, a, .segments parts, p.queryText (schemeKind scheme), p.fragmentText⟩ where
  scheme := hscheme
  body := hbody
  query _ := kept_queryText
  fragment _ := kept_fragmentText
  tight _ h := by cases h

/-! ### Paths -/

theorem isSegment_walkText {done : List String} (hdone : ∀ s ∈ done, IsSegment kind s)
    (text : List Char) : ∀ s ∈ walkText kind done text, IsSegment kind s :=
  isSegment_walk hdone fun _ hpart _ hc => (mem_splitWhere hpart hc).2

theorem isSegment_walkText_root (kind : SchemeKind) (text : List Char) :
    ∀ s ∈ walkText kind [] text, IsSegment kind s :=
  isSegment_walkText (by simp) text

theorem walkText_ne_nil (done : List String) (text : List Char) : walkText kind done text ≠ [] :=
  walk_ne_nil (splitWhere_ne_nil _ _)

theorem mem_directory {parts : List String} {s : String} (h : s ∈ directory kind parts) :
    s ∈ parts := by
  unfold directory at h
  split at h
  · exact h
  · exact (List.dropLast_sublist parts).subset h

theorem rooted_dropLeadingEmpty (parts : List String) : Rooted (dropLeadingEmpty parts) := by
  unfold dropLeadingEmpty
  simp only
  split
  · exact .inl rfl
  · next hsome =>
      refine .inr ⟨fun hnil => hsome (by rw [hnil]; rfl), fun hhead => ?_⟩
      have hstop := List.head?_dropWhile_not (· == "") parts
      rw [hhead] at hstop
      simp at hstop

theorem mem_dropLeadingEmpty {parts : List String} {s : String}
    (h : s ∈ dropLeadingEmpty parts) : s = "" ∨ s ∈ parts := by
  unfold dropLeadingEmpty at h
  simp only at h
  split at h
  · exact .inl (List.mem_singleton.mp h)
  · exact .inr ((List.dropWhile_sublist _).subset h)

/-! ### Files -/

theorem isFileHost_void : IsFileHost "" := .inl rfl

theorem fileWith_proper {host : String} {path : List String} (hhost : IsFileHost host)
    (hpath : ∀ s ∈ path, IsSegment .file s) (p : Pieces) : (fileWith host path p).Proper := by
  have hscheme : IsScheme "file" := ⟨by decide, by decide, by decide⟩
  refine proper_of_segments hscheme (.file rfl hhost ?_ (rooted_dropLeadingEmpty path)) p
  intro s hs
  rcases mem_dropLeadingEmpty hs with rfl | hs
  · exact isSegment_nil .file
  · exact hpath s hs

theorem fileWithHost?_proper {body : List Char} {u : Url} (h : fileWithHost? body p = some u) :
    u.Proper := by
  have hhost : ∀ (host : String) (drive : Bool),
      (host = "" ∨ specialHost? host.toList = some host ∧ IsHost host) →
        IsFileHost (if host = "localhost" || drive then "" else host) := by
    intro host drive h
    split
    · exact isFileHost_void
    · next hnamed =>
        refine h.imp_right fun ⟨hfixed, hishost⟩ => ⟨hfixed, hishost, ?_⟩
        rintro rfl
        exact hnamed rfl
  unfold fileWithHost? at h
  simp only at h
  split at h
  · obtain rfl := Option.some.inj h
    exact fileWith_proper isFileHost_void (isSegment_walkText_root .file _) p
  split at h
  · obtain rfl := Option.some.inj h
    exact fileWith_proper (hhost _ _ (.inl rfl)) (isSegment_walkText_root .file _) p
  · obtain ⟨host, hread, h⟩ := Option.bind_eq_some_iff.mp h
    obtain rfl := Option.some.inj h
    obtain ⟨hfixed, hishost, -⟩ := specialHost?_fixed hread
    exact fileWith_proper (hhost _ _ (.inr ⟨hfixed, hishost⟩)) (isSegment_walkText_root .file _) p

theorem fileFromRoot_proper {host : String} {parts : List String} (hhost : IsFileHost host)
    (hparts : ∀ s ∈ parts, IsSegment .file s) (body : List Char) (p : Pieces) :
    (fileFromRoot host parts body p).Proper := by
  unfold fileFromRoot
  split
  · exact fileWith_proper isFileHost_void (isSegment_walkText_root .file _) p
  split
  · refine fileWith_proper isFileHost_void (isSegment_walkText ?_ _) p
    exact fun s hs => hparts s (List.mem_of_mem_take hs)
  · exact fileWith_proper hhost (isSegment_walkText_root .file _) p

/-- The base with another query and fragment. -/
theorem Proper.withTail {b : Url} (hb : b.Proper) (p : Pieces)
    (htight : ∀ text, b.path = .bare text → p.fragment.isSome) : (b.withTail p).Proper := by
  obtain ⟨hscheme, hauthority, hpath, hfragment, hquery⟩ : (b.withTail p).scheme = b.scheme ∧
      (b.withTail p).authority = b.authority ∧ (b.withTail p).path = b.path ∧
      (b.withTail p).fragment = p.fragmentText ∧ ((b.withTail p).query = b.query ∨
        (b.withTail p).query = p.queryText (schemeKind b.scheme)) := by
    unfold Url.withTail
    split
    · exact ⟨rfl, rfl, rfl, rfl, .inl rfl⟩
    · exact ⟨rfl, rfl, rfl, rfl, .inr rfl⟩
  refine ⟨hscheme ▸ hb.scheme, ?_, ?_, ?_, ?_⟩
  · rw [hscheme, hauthority, hpath]
    exact hb.body
  · rw [hscheme]
    rcases hquery with hquery | hquery <;> rw [hquery]
    · exact hb.query
    · exact fun _ => kept_queryText
  · rw [hfragment]
    exact fun _ => kept_fragmentText
  · rw [hpath, hfragment]
    intro text htext _ hnone
    have hsome := htight text htext
    rw [Pieces.fragmentText, Option.map_eq_none_iff] at hnone
    rw [hnone] at hsome
    cases hsome

theorem schemeKind_eq_file {scheme : String} : schemeKind scheme = .file ↔ scheme = "file" := by
  unfold schemeKind
  split
  · next h => exact ⟨fun _ => h, fun _ => rfl⟩
  · next h =>
      refine ⟨fun hkind => ?_, fun hscheme => absurd hscheme h⟩
      split at hkind <;> cases hkind

/-- Only a scheme that is not special goes with a bare path. -/
theorem Proper.path_segments {b : Url} (hb : b.Proper) (hkind : schemeKind b.scheme ≠ .other) :
    ∃ parts, b.path = .segments parts := by
  have hbody := hb.body
  cases hpath : b.path with
  | segments parts => exact ⟨parts, rfl⟩
  | bare text =>
      rw [hpath] at hbody
      generalize b.authority = authority at hbody
      cases hbody with
      | bare hother => exact absurd hother hkind

/-- What a file URL gives to those that are read against it. -/
theorem Proper.file_base {b : Url} (hb : b.Proper) (hfile : b.scheme = "file") :
    IsFileHost (b.host?.getD "") ∧ (∀ s ∈ b.path.parts, IsSegment .file s) ∧
      ∀ text, b.path ≠ .bare text := by
  have hkind := schemeKind_eq_file.mpr hfile
  have hbody := hb.body
  obtain ⟨scheme, authority, path, query, fragment⟩ := b
  cases hbody with
  | bare hother => cases hkind.symm.trans hother
  | file _ hhost hparts => exact ⟨hhost, hparts, by simp⟩
  | named hnot => exact absurd hkind hnot
  | unnamed hother => cases hkind.symm.trans hother

theorem file?_proper {base : Option Url} {u : Url}
    (hbase : ∀ b, base = some b → b.Proper ∧ b.scheme = "file") (h : file? base p = some u) :
    u.Proper := by
  obtain ⟨hhost, hparts⟩ : IsFileHost ((base.bind Url.host?).getD "") ∧
      ∀ s ∈ (base.map fun b => b.path.parts).getD [], IsSegment .file s := by
    cases base with
    | none => exact ⟨isFileHost_void, by simp⟩
    | some b =>
        obtain ⟨hb, hfile⟩ := hbase b rfl
        obtain ⟨hhost, hparts, -⟩ := hb.file_base hfile
        exact ⟨hhost, hparts⟩
  unfold file? at h
  simp only at h
  split at h
  · next b _ =>
      obtain rfl := Option.some.inj h
      obtain ⟨hb, hfile⟩ := hbase b rfl
      exact hb.withTail p fun text htext => absurd htext ((hb.file_base hfile).2.2 text)
  · obtain rfl := Option.some.inj h
    refine fileWith_proper isFileHost_void (fun s hs => ?_) p
    exact List.mem_singleton.mp hs ▸ isSegment_nil .file
  split at h
  · split at h
    · exact fileWithHost?_proper h
    · obtain rfl := Option.some.inj h
      exact fileFromRoot_proper hhost hparts _ p
  split at h <;> obtain rfl := Option.some.inj h
  · exact fileWith_proper isFileHost_void (isSegment_walkText_root .file _) p
  · exact fileWith_proper hhost
      (isSegment_walkText (fun s hs => hparts s (mem_directory hs)) _) p

/-! ### Other schemes -/

theorem withAuthority?_proper {scheme : String} {body : List Char} {u : Url}
    (hscheme : IsScheme scheme) (hkind : schemeKind scheme ≠ .file)
    (h : withAuthority? scheme (schemeKind scheme) body p = some u) : u.Proper := by
  unfold withAuthority? at h
  obtain ⟨a, ha, h⟩ := Option.bind_eq_some_iff.mp h
  obtain rfl := Option.some.inj h
  refine proper_of_segments hscheme (.named hkind (authority?_proper ha) ?_ ?_) p
  · split
    · simp
    · exact isSegment_walkText_root _ _
  · intro hspecial
    rw [hspecial]
    simp [walkText_ne_nil]

/-- A path that takes the place of that of a base. -/
theorem Proper.withPath {b : Url} {parts new : List String} (hb : b.Proper)
    (hkind : schemeKind b.scheme ≠ .file) (hpath : b.path = .segments parts)
    (hnew : ∀ s ∈ new, IsSegment (schemeKind b.scheme) s) (hsome : new ≠ []) :
    IsBody b.scheme b.authority (.segments new) := by
  have hbody := hb.body
  obtain ⟨scheme, authority, path, query, fragment⟩ := b
  cases hpath
  cases hbody with
  | file hfile => exact absurd (schemeKind_eq_file.mpr hfile) hkind
  | named _ ha => exact .named hkind ha hnew fun _ => hsome
  | unnamed hother => exact .unnamed hother (hother ▸ hnew) hsome

theorem Proper.isSegment {b : Url} {parts : List String} (hb : b.Proper)
    (hpath : b.path = .segments parts) : ∀ s ∈ parts, IsSegment (schemeKind b.scheme) s := by
  have hbody := hb.body
  obtain ⟨scheme, authority, path, query, fragment⟩ := b
  cases hpath
  cases hbody with
  | file hfile _ hparts =>
      rw [schemeKind_eq_file.mpr hfile]
      exact hparts
  | named _ _ hparts => exact hparts
  | unnamed hother hparts =>
      rw [hother]
      exact hparts

theorem relative?_proper {b u : Url} {parts : List String} (hb : b.Proper)
    (hkind : schemeKind b.scheme ≠ .file) (hpath : b.path = .segments parts)
    (h : relative? b p = some u) : u.Proper := by
  have hwith : ∀ (done : List String) (text : List Char),
      (∀ s ∈ done, IsSegment (schemeKind b.scheme) s) →
        Proper { b with path := .segments (walkText (schemeKind b.scheme) done text),
                        query := p.queryText (schemeKind b.scheme),
                        fragment := p.fragmentText } := fun done text hdone =>
    proper_of_segments hb.scheme
      (hb.withPath hkind hpath (isSegment_walkText hdone text) (walkText_ne_nil done text)) p
  have hroot : ∀ s ∈ ([] : List String), IsSegment (schemeKind b.scheme) s := by simp
  unfold relative? at h
  simp only at h
  split at h
  · obtain rfl := Option.some.inj h
    exact hb.withTail p fun text htext => by cases hpath.symm.trans htext
  · exact withAuthority?_proper hb.scheme hkind h
  split at h
  · split at h
    · exact withAuthority?_proper hb.scheme hkind h
    · obtain rfl := Option.some.inj h
      exact hwith [] _ hroot
  · obtain rfl := Option.some.inj h
    refine hwith _ _ fun s hs => hb.isSegment hpath s ?_
    have hmem := mem_directory hs
    rwa [hpath] at hmem

/-! ### Bare paths -/

/-- The part before the fragment, split at its first question mark. -/
theorem Pieces.query_read {text : List Char} {fragment : Option (List Char)} {p : Pieces}
    (hhash : '#' ∉ text)
    (hp : (match splitFirst? '?' text with
      | some (before, after) => (⟨before, some after, fragment⟩ : Pieces)
      | none => ⟨text, none, fragment⟩) = p) :
    (∀ c ∈ p.body, c ≠ '?' ∧ c ≠ '#') ∧ (p.query = none → p.body = text) ∧
      p.fragment = fragment := by
  split at hp
  · next before after hsplit =>
      obtain ⟨rfl, hquestion⟩ := splitFirst?_eq_some_iff.mp hsplit
      subst hp
      refine ⟨fun c hc => ⟨?_, ?_⟩, nofun, rfl⟩ <;> rintro rfl
      · exact hquestion hc
      · exact hhash (List.mem_append_left _ hc)
  · next hnone =>
      have hquestion := splitFirst?_eq_none_iff.mp hnone
      subst hp
      refine ⟨fun c hc => ⟨?_, ?_⟩, fun _ => rfl, rfl⟩ <;> rintro rfl
      · exact hquestion hc
      · exact hhash hc

/-- The body of a text ends at the first mark. -/
theorem Pieces.body_read (text : List Char) :
    (∀ c ∈ (read text).body, c ≠ '?' ∧ c ≠ '#') ∧
      ((read text).query = none → (read text).fragment = none → (read text).body = text) := by
  unfold read
  cases hsplit : splitFirst? '#' text with
  | none =>
      obtain ⟨hmarks, hbody, -⟩ := query_read (splitFirst?_eq_none_iff.mp hsplit) rfl
      exact ⟨hmarks, fun hnone _ => hbody hnone⟩
  | some parts =>
      obtain ⟨before, after⟩ := parts
      obtain ⟨-, hhash⟩ := splitFirst?_eq_some_iff.mp hsplit
      obtain ⟨hmarks, -, hfragment⟩ := query_read hhash rfl
      exact ⟨hmarks, fun _ hnone => by cases hfragment.symm.trans hnone⟩

/-- An encoding ends with a blank only if the text does. -/
theorem getLast?_percentEncode {kept : Char → Bool}
    (h : (percentEncode kept text).getLast? = some ' ') : text.getLast? = some ' ' := by
  rcases List.eq_nil_or_concat text with rfl | ⟨before, c, rfl⟩
  · cases h
  · have happend : percentEncode kept (before ++ [c]) =
        percentEncode kept before ++ percentEncode kept [c] := by
      rw [percentEncode, Utf8.encode_append, percentEncodeBytes, List.flatMap_append]
      rfl
    have hsome : percentEncode kept [c] ≠ [] := fun hnil => by
      cases percentEncode_eq_nil hnil
    rw [List.concat_eq_append, happend, List.getLast?_append] at h
    rw [List.concat_eq_append, List.getLast?_concat]
    cases hlast : (percentEncode kept [c]).getLast? with
    | none => exact absurd (List.getLast?_eq_none_iff.mp hlast) hsome
    | some d =>
        rw [hlast, Option.some_or] at h
        obtain rfl := Option.some.inj h
        rcases mem_percentEncode (List.mem_of_getLast? hlast) with ⟨hmem, -⟩ | hescape
        · rw [List.mem_singleton.mp hmem]
        · exact absurd hescape (by decide)

theorem bare_proper {scheme : String} {rest : List Char} (hscheme : IsScheme scheme)
    (hkind : schemeKind scheme = .other) (hlast : rest.getLast? ≠ some ' ')
    (hhead : (Pieces.read rest).body.head? ≠ some '/') :
    Proper ⟨scheme, none, .bare (String.ofList (percentEncode isPlain (Pieces.read rest).body)),
      (Pieces.read rest).queryText (schemeKind scheme), (Pieces.read rest).fragmentText⟩ := by
  obtain ⟨hmarks, hwhole⟩ := Pieces.body_read rest
  generalize Pieces.read rest = p at hhead hmarks hwhole ⊢
  refine ⟨hscheme, .bare hkind ?_ ?_, ?_, fun _ => kept_fragmentText, ?_⟩
  · intro c hc
    rw [String.toList_ofList] at hc
    refine ⟨kept_of_mem_percentEncode admits_plain hc, ?_⟩
    rcases mem_percentEncode hc with ⟨hmem, -⟩ | hescape
    · exact hmarks c hmem
    · constructor <;> rintro rfl <;> exact absurd hescape (by decide)
  · rw [String.toList_ofList]
    intro hslash
    cases hbody : p.body with
    | nil =>
        rw [hbody] at hslash
        cases hslash
    | cons c body =>
        rw [hbody] at hslash hhead
        rcases percentEncode_cons_cases isPlain c body with ⟨hkept, -⟩ | ⟨b, tail, hescape, -⟩
        · rw [hkept] at hslash
          exact hhead hslash
        · rw [hescape] at hslash
          cases hslash
  · exact fun _ => kept_queryText
  · rintro text hpath hquery hfragment
    cases hpath
    rw [String.toList_ofList]
    intro hblank
    have hnone := hwhole (Option.map_eq_none_iff.mp hquery) (Option.map_eq_none_iff.mp hfragment)
    exact hlast (hnone ▸ getLast?_percentEncode hblank)

/-! ### References -/

theorem withScheme?_proper {base : Option Url} {scheme : String} {rest : List Char} {u : Url}
    (hbase : ∀ b, base = some b → b.Proper) (hscheme : IsScheme scheme)
    (hlast : rest.getLast? ≠ some ' ') (h : withScheme? base scheme rest = some u) :
    u.Proper := by
  have hsibling : ∀ b, (base.filter fun b => decide (b.scheme = scheme)) = some b →
      b.Proper ∧ b.scheme = scheme := by
    intro b hb
    obtain ⟨hb, hsame⟩ := Option.filter_eq_some_iff.mp hb
    exact ⟨hbase b hb, of_decide_eq_true hsame⟩
  unfold withScheme? at h
  simp only at h
  split at h
  · next hkind =>
      refine file?_proper (fun b hb => ?_) h
      obtain ⟨hb, hsame⟩ := hsibling b hb
      exact ⟨hb, hsame.trans (schemeKind_eq_file.mp hkind)⟩
  · next hkind =>
      have hfile : schemeKind scheme ≠ .file := by
        rw [hkind]
        decide
      split at h
      · next b hmatch =>
          obtain ⟨hb, rfl⟩ := hsibling b hmatch
          split at h
          · obtain ⟨parts, hpath⟩ := hb.path_segments (by rw [hkind]; decide)
            exact relative?_proper hb hfile hpath h
          · exact withAuthority?_proper hscheme hfile h
      · exact withAuthority?_proper hscheme hfile h
  · next hkind =>
      have hfile : schemeKind scheme ≠ .file := by
        rw [hkind]
        decide
      split at h
      · exact withAuthority?_proper hscheme hfile h
      · obtain rfl := Option.some.inj h
        have hparts := isSegment_walkText_root (schemeKind scheme)
        refine proper_of_segments hscheme (.unnamed hkind ?_ (walkText_ne_nil _ _)) _
        exact hkind ▸ hparts _
      · next _ hnot =>
          obtain rfl := Option.some.inj h
          refine bare_proper hscheme hkind hlast fun hhead => ?_
          cases hbody : (Pieces.read rest).body with
          | nil =>
              rw [hbody] at hhead
              cases hhead
          | cons c body =>
              rw [hbody] at hhead
              cases hhead
              exact hnot body hbody

theorem getLast?_rest {text : String} {before rest : List Char}
    (h : readable text = before ++ ':' :: rest) : rest.getLast? ≠ some ' ' := by
  intro hblank
  refine getLast?_readable text ?_
  rw [h, List.getLast?_append, List.getLast?_cons, hblank]
  rfl

/-- A URL that names its scheme is proper. -/
theorem parse?_proper {text : String} {u : Url} (h : parse? text = some u) : u.Proper := by
  obtain ⟨⟨scheme, rest⟩, hscheme, h⟩ := Option.bind_eq_some_iff.mp h
  obtain ⟨hscheme, before, htext⟩ := isScheme_of_read hscheme
  exact withScheme?_proper (by simp) hscheme (getLast?_rest htext) h

/-- So is a reference that is joined to a proper base. -/
theorem join?_proper {base u : Url} {reference : String} (hbase : base.Proper)
    (h : join? base reference = some u) : u.Proper := by
  unfold join? at h
  simp only at h
  split at h
  · next scheme rest hsplit =>
      obtain ⟨hscheme, before, htext⟩ := isScheme_of_read hsplit
      exact withScheme?_proper (fun b hb => Option.some.inj hb ▸ hbase) hscheme
        (getLast?_rest htext) h
  · split at h
    · split at h
      · next hfragment =>
          obtain rfl := Option.some.inj h
          exact hbase.withTail _ fun _ _ => (Bool.and_eq_true_iff.mp hfragment).2
      · cases h
    · next parts hpath =>
        split at h
        · next hkind =>
            refine file?_proper (fun b hb => ?_) h
            exact Option.some.inj hb ▸ ⟨hbase, schemeKind_eq_file.mp hkind⟩
        · next hkind => exact relative?_proper hbase hkind hpath h

end TickHost.Url
