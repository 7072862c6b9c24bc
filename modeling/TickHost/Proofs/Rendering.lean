import TickHost.Proofs.Authorities
import TickHost.Proofs.Segments

/-!
A URL is read from its text. What readers give is proper: each part holds only what it keeps, so
that the marks between the parts are where the parts end. The text of a proper URL is read as the
same URL, except that a file path is walked once more: two dots that came from a local path are
carried out, a drive letter at the start gets its colon, and before a drive there is no host.
-/

namespace TickHost.Url

open Text

/-! ### Proper URLs -/

/-- A scheme in lower case. -/
structure IsScheme (s : String) : Prop where
  head : s.toList.head?.any Char.isAlpha = true
  chars : s.toList.all isSchemeChar = true
  lower : s.toList.map Char.toLower = s.toList

/-- The host of a file: none, or one that is named and is not this machine. -/
def IsFileHost (host : String) : Prop :=
  host = "" ∨ specialHost? host.toList = some host ∧ IsHost host ∧ host ≠ "localhost"

/-- A file path starts with a name, or is the root. -/
def Rooted (parts : List String) : Prop :=
  parts = [""] ∨ parts ≠ [] ∧ parts.head? ≠ some ""

/-- What may stand between the scheme and the query. -/
inductive IsBody (scheme : String) : Option Authority → Path → Prop
  | bare {text : String} (hkind : schemeKind scheme = .other)
      (hchars : ∀ c ∈ text.toList, isPlain c = true ∧ c ≠ '?' ∧ c ≠ '#')
      (hhead : text.toList.head? ≠ some '/') : IsBody scheme none (.bare text)
  | file {host : String} {parts : List String} (hscheme : scheme = "file")
      (hhost : IsFileHost host) (hparts : ∀ s ∈ parts, IsSegment .file s) (hrooted : Rooted parts) :
      IsBody scheme (some (.ofHost host)) (.segments parts)
  | named {a : Authority} {parts : List String} (hkind : schemeKind scheme ≠ .file)
      (ha : a.Proper scheme) (hparts : ∀ s ∈ parts, IsSegment (schemeKind scheme) s)
      (hsome : schemeKind scheme = .special → parts ≠ []) : IsBody scheme (some a) (.segments parts)
  | unnamed {parts : List String} (hkind : schemeKind scheme = .other)
      (hparts : ∀ s ∈ parts, IsSegment .other s) (hsome : parts ≠ []) :
      IsBody scheme none (.segments parts)

/-- A URL as readers give it. -/
structure Proper (u : Url) : Prop where
  scheme : IsScheme u.scheme
  body : IsBody u.scheme u.authority u.path
  query : ∀ q, u.query = some q →
    ∀ c ∈ q.toList, keptInQuery (schemeKind u.scheme != .other) c = true
  fragment : ∀ f, u.fragment = some f → ∀ c ∈ f.toList, keptInFragment c = true
  /-- Blanks at the end of a text do not count. -/
  tight : ∀ text, u.path = .bare text → u.query = none → u.fragment = none →
    text.toList.getLast? ≠ some ' '

/-- The URL that the text of a URL means. -/
def settled (u : Url) : Url :=
  match u.path with
  | .segments parts =>
      if u.scheme = "file" then
        let path := walk .file [] (parts.map String.toList)
        let host := if startsWithDrive path then "" else u.host?.getD ""
        { u with authority := some (.ofHost host), path := .segments (dropLeadingEmpty path) }
      else u
  | .bare _ => u

/-! ### The text of a URL -/

/-- The segments of a path as they are written. -/
def pathText (parts : List String) : List Char :=
  (parts.map String.toList).flatMap ('/' :: ·)

def bodyText (u : Url) : List Char :=
  (match u.authority with
    | some a => '/' :: '/' :: a.render.toList
    | none => if u.needsDot then ['/', '.'] else []) ++ u.path.render.toList

def tailText (mark : Char) (part : Option String) : List Char :=
  match part with
  | some text => mark :: text.toList
  | none => []

theorem toList_render (u : Url) : u.render.toList = u.scheme.toList ++ ':' ::
    (u.bodyText ++ (tailText '?' u.query ++ tailText '#' u.fragment)) := by
  obtain ⟨scheme, authority, path, query, fragment⟩ := u
  unfold render bodyText tailText
  cases authority <;> cases query <;> cases fragment <;> simp [apply_ite String.toList]

theorem toList_pathRender (parts : List String) :
    (Path.segments parts).render.toList = pathText parts := by
  simp [Path.render, pathText, List.flatMap_map]

/-- Printing, and not the blank. -/
def isInk (c : Char) : Bool :=
  0x20 < c.toNat && c.toNat ≤ 0x7e

theorem plain_of_ink {c : Char} (hc : isInk c = true) : isPlain c = true := by
  simp only [isInk, isPlain, Bool.and_eq_true, decide_eq_true_eq] at hc ⊢
  omega

theorem ink_of_kept {kept : Char → Bool} (hplain : ∀ c, kept c = true → isPlain c = true)
    (hblank : kept ' ' = false) {c : Char} (hc : kept c = true) : isInk c = true := by
  have hne : c ≠ ' ' := ne_of_test hc hblank
  have hrange := hplain c hc
  have hvalue : c.toNat ≠ 0x20 := fun h => hne (Char.toNat_inj.mp h)
  simp only [isPlain, isInk, Bool.and_eq_true, decide_eq_true_eq] at hrange ⊢
  omega

theorem ink_path {c : Char} (hc : keptInPath c = true) : isInk c = true ∧ c ≠ '?' ∧ c ≠ '#' :=
  ⟨ink_of_kept admits_path.plain (by decide) hc, ne_of_test hc (by decide),
    ne_of_test hc (by decide)⟩

theorem ink_authority {c : Char} (hc : inAuthority c = true) :
    isInk c = true ∧ c ≠ '?' ∧ c ≠ '#' := by
  have hplain : ∀ c, inAuthority c = true → isPlain c = true := fun c hc =>
    (Bool.and_eq_true_iff.mp hc).1
  exact ⟨ink_of_kept hplain (by decide) hc, ne_of_test hc (by decide), ne_of_test hc (by decide)⟩

theorem ink_pathText {kind : SchemeKind} {parts : List String}
    (hparts : ∀ s ∈ parts, IsSegment kind s) :
    ∀ c ∈ pathText parts, isInk c = true ∧ c ≠ '?' ∧ c ≠ '#' := by
  intro c hc
  obtain ⟨part, hpart, hc⟩ := List.mem_flatMap.mp hc
  obtain ⟨s, hs, rfl⟩ := List.mem_map.mp hpart
  rcases List.mem_cons.mp hc with rfl | hc
  · decide
  · exact ink_path ((hparts s hs).kept c hc)

theorem toList_renderHost (host : String) :
    (Authority.ofHost host).render.toList = host.toList := by
  simp [Authority.ofHost, Authority.render]

theorem inAuthority_fileHost {host : String} (h : IsFileHost host) :
    ∀ c ∈ host.toList, inAuthority c = true := by
  intro c hc
  rcases h with rfl | ⟨-, hhost, -⟩
  · cases hc
  · exact (inAuthority_host hhost c hc).1

/-- A body holds no mark of a query or a fragment, and a blank only where no path in segments is. -/
theorem Proper.ink_bodyText {u : Url} (h : u.Proper) : ∀ c ∈ u.bodyText,
    isPlain c = true ∧ c ≠ '?' ∧ c ≠ '#' ∧ ((∀ text, u.path ≠ .bare text) → isInk c = true) := by
  have hink : ∀ c, isInk c = true ∧ c ≠ '?' ∧ c ≠ '#' → isPlain c = true ∧ c ≠ '?' ∧ c ≠ '#' ∧
      ((∀ text, u.path ≠ .bare text) → isInk c = true) := by
    rintro c ⟨hc, hquestion, hhash⟩
    exact ⟨plain_of_ink hc, hquestion, hhash, fun _ => hc⟩
  have hauthority : ∀ (text : List Char) (c : Char), (∀ c ∈ text, inAuthority c = true) →
      c ∈ '/' :: '/' :: text → isInk c = true ∧ c ≠ '?' ∧ c ≠ '#' := by
    intro text c htext hc
    rcases List.mem_cons.mp hc with rfl | hc
    · decide
    rcases List.mem_cons.mp hc with rfl | hc
    · decide
    · exact ink_authority (htext c hc)
  obtain ⟨scheme, authority, path, query, fragment⟩ := u
  obtain ⟨-, hbody, -, -, -⟩ := h
  intro c hc
  simp only at hbody
  cases hbody with
  | @bare text hkind hchars hhead =>
      have hmem : c ∈ text.toList := by simpa [bodyText, needsDot, Path.render] using hc
      obtain ⟨hplain, hquestion, hhash⟩ := hchars c hmem
      exact ⟨hplain, hquestion, hhash, fun hnot => absurd rfl (hnot _)⟩
  | file hscheme hhost hparts hrooted =>
      simp only [bodyText, toList_pathRender, toList_renderHost] at hc
      rcases List.mem_append.mp hc with hc | hc
      · exact hink c (hauthority _ c (inAuthority_fileHost hhost) hc)
      · exact hink c (ink_pathText hparts c hc)
  | named hkind ha hparts hsome =>
      simp only [bodyText, toList_pathRender] at hc
      rcases List.mem_append.mp hc with hc | hc
      · exact hink c (hauthority _ c ha.inAuthority hc)
      · exact hink c (ink_pathText hparts c hc)
  | unnamed hkind hparts hsome =>
      simp only [bodyText, toList_pathRender] at hc
      rcases List.mem_append.mp hc with hc | hc
      · have hdots : ∀ c ∈ ['/', '.'], isInk c = true ∧ c ≠ '?' ∧ c ≠ '#' :=
          forall_of_all (by decide)
        split at hc
        · exact hink c (hdots c hc)
        · cases hc
      · exact hink c (ink_pathText hparts c hc)

/-! ### Reading -/

theorem dropWhile_eq_self {α : Type} {p : α → Bool} {xs : List α}
    (h : ∀ x, xs.head? = some x → p x = false) : xs.dropWhile p = xs := by
  cases xs with
  | nil => rfl
  | cons x xs => rw [List.dropWhile_cons_of_neg (by simp [h x rfl])]

/-- A text that neither starts nor ends with a blank is read as it is. -/
theorem readable_eq_self {text : String} (hall : ∀ c ∈ text.toList, isPlain c = true)
    (hhead : ∀ c, text.toList.head? = some c → isInk c = true)
    (hlast : ∀ c, text.toList.getLast? = some c → isInk c = true) :
    readable text = text.toList := by
  have hblank : ∀ c, isInk c = true → decide (c.toNat ≤ 0x20) = false := by
    intro c hc
    simp only [isInk, Bool.and_eq_true, decide_eq_true_eq] at hc
    simp only [decide_eq_false_iff_not]
    omega
  have hreverse : (text.toList.reverse).dropWhile (fun c => decide (c.toNat ≤ 0x20)) =
      text.toList.reverse :=
    dropWhile_eq_self fun c hc => hblank c (hlast c (by rwa [List.head?_reverse] at hc))
  unfold readable
  simp only
  rw [dropWhile_eq_self fun c hc => hblank c (hhead c hc), hreverse, List.reverse_reverse,
    List.filter_eq_self]
  intro c hc
  have hplain := hall c hc
  rw [decide_eq_true_eq]
  refine ⟨?_, ?_, ?_⟩ <;> rintro rfl <;> exact absurd hplain (by decide)

theorem splitScheme?_append {scheme : String} (h : IsScheme scheme) (rest : List Char) :
    splitScheme? (scheme.toList ++ ':' :: rest) = some (scheme, rest) := by
  have hcolon : ':' ∉ scheme.toList := fun hc =>
    absurd (List.all_eq_true.mp h.chars _ hc) (by decide)
  rw [splitScheme?, splitFirst?_append hcolon]
  simp only [h.head, h.chars, Bool.and_self, if_true, h.lower, String.ofList_toList]

/-- The marks of query and fragment are found, since nothing before them holds any. -/
theorem read_tails {body : List Char} {query fragment : Option String}
    (hbody : ∀ c ∈ body, c ≠ '?' ∧ c ≠ '#') (hquery : ∀ q, query = some q → '#' ∉ q.toList) :
    Pieces.read (body ++ (tailText '?' query ++ tailText '#' fragment)) =
      ⟨body, query.map String.toList, fragment.map String.toList⟩ := by
  have hquestion : '?' ∉ body := fun hc => (hbody _ hc).1 rfl
  have hhash : '#' ∉ body ++ tailText '?' query := by
    intro hc
    rcases List.mem_append.mp hc with hc | hc
    · exact (hbody _ hc).2 rfl
    · cases query with
      | none => cases hc
      | some q =>
          rcases List.mem_cons.mp hc with h | hc
          · cases h
          · exact hquery q rfl hc
  have hfragment : splitFirst? '#' (body ++ (tailText '?' query ++ tailText '#' fragment)) =
      fragment.map fun f => (body ++ tailText '?' query, f.toList) := by
    rw [← List.append_assoc]
    cases fragment with
    | none => simpa [tailText] using splitFirst?_eq_none hhash
    | some f => exact splitFirst?_append hhash
  have hsplit : splitFirst? '?' (body ++ tailText '?' query) =
      query.map fun q => (body, q.toList) := by
    cases query with
    | none => simpa [tailText] using splitFirst?_eq_none hquestion
    | some q => exact splitFirst?_append hquestion
  unfold Pieces.read
  rw [hfragment]
  cases fragment with
  | none =>
      simp only [Option.map_none, tailText, List.append_nil] at hsplit ⊢
      rw [hsplit]
      cases query <;> simp
  | some f =>
      simp only [Option.map_some, hsplit]
      cases query <;> simp [tailText]

theorem queryText_kept {kind : SchemeKind} {body : List Char} {query fragment : Option String}
    (h : ∀ q, query = some q → ∀ c ∈ q.toList, keptInQuery (kind != .other) c = true) :
    Pieces.queryText ⟨body, query.map String.toList, fragment.map String.toList⟩ kind = query := by
  cases query with
  | none => rfl
  | some q =>
      simp only [Pieces.queryText, Option.map_some,
        percentEncode_eq_self (admits_query _) (h q rfl), String.ofList_toList]

theorem fragmentText_kept {body : List Char} {query fragment : Option String}
    (h : ∀ f, fragment = some f → ∀ c ∈ f.toList, keptInFragment c = true) :
    Pieces.fragmentText ⟨body, query.map String.toList, fragment.map String.toList⟩ =
      fragment := by
  cases fragment with
  | none => rfl
  | some f =>
      simp only [Pieces.fragmentText, Option.map_some,
        percentEncode_eq_self admits_fragment (h f rfl), String.ofList_toList]

/-! ### The ends of a text -/

/-- A text does not end with a blank. -/
def EndsInk (text : List Char) : Prop :=
  ∀ c, text.getLast? = some c → isInk c = true

theorem endsInk_of_all {text : List Char} (h : ∀ c ∈ text, isInk c = true) : EndsInk text :=
  fun c hc => h c (List.mem_of_getLast? hc)

theorem EndsInk.append {before after : List Char} (hafter : EndsInk after)
    (hbefore : after = [] → EndsInk before) : EndsInk (before ++ after) := by
  intro c hc
  rw [List.getLast?_append] at hc
  cases hlast : after.getLast? with
  | none =>
      rw [hlast, Option.none_or] at hc
      exact hbefore (List.getLast?_eq_none_iff.mp hlast) c hc
  | some d =>
      rw [hlast, Option.some_or] at hc
      exact hafter c (hlast.trans hc)

theorem ink_tailText {mark : Char} {part : Option String} (hmark : isInk mark = true)
    (h : ∀ text, part = some text → ∀ c ∈ text.toList, isInk c = true) :
    ∀ c ∈ tailText mark part, isInk c = true := by
  intro c hc
  cases part with
  | none => cases hc
  | some text =>
      rcases List.mem_cons.mp hc with rfl | hc
      · exact hmark
      · exact h text rfl c hc

theorem tailText_eq_nil {mark : Char} {part : Option String} (h : tailText mark part = []) :
    part = none := by
  cases part with
  | none => rfl
  | some text => cases h

theorem Proper.endsInk_bodyText {u : Url} (h : u.Proper) (hquery : u.query = none)
    (hfragment : u.fragment = none) : EndsInk u.bodyText := by
  cases hpath : u.path with
  | segments parts =>
      refine endsInk_of_all fun c hc => (h.ink_bodyText c hc).2.2.2 fun text htext => ?_
      cases hpath.symm.trans htext
  | bare text =>
      intro c hc
      have hbody : u.bodyText = text.toList := by
        have hbare := h.body
        rw [hpath] at hbare
        generalize hscheme : u.scheme = scheme at hbare
        generalize hauthority : u.authority = authority at hbare
        cases hbare
        simp [bodyText, needsDot, hpath, hauthority, Path.render]
      have hplain := (h.ink_bodyText c (List.mem_of_getLast? hc)).1
      have hblank : c ≠ ' ' := fun heq =>
        h.tight text hpath hquery hfragment (hbody ▸ hc.trans (congrArg some heq))
      have hvalue : c.toNat ≠ 0x20 := fun heq => hblank (Char.toNat_inj.mp heq)
      simp only [isPlain, isInk, Bool.and_eq_true, decide_eq_true_eq] at hplain ⊢
      omega

theorem Proper.ink_query {u : Url} (h : u.Proper) :
    ∀ q, u.query = some q → ∀ c ∈ q.toList, isInk c = true ∧ c ≠ '#' := by
  intro q hq c hc
  have hkept := h.query q hq c hc
  refine ⟨ink_of_kept (admits_query _).plain ?_ hkept, ?_⟩
  · simp [keptInQuery]
  · rintro rfl
    simp [keptInQuery] at hkept

theorem Proper.ink_fragment {u : Url} (h : u.Proper) :
    ∀ f, u.fragment = some f → ∀ c ∈ f.toList, isInk c = true :=
  fun f hf c hc => ink_of_kept admits_fragment.plain (by decide) (h.fragment f hf c hc)

theorem ink_schemeChar {c : Char} (hc : isSchemeChar c = true) : isInk c = true := by
  rcases Bool.or_eq_true_iff.mp hc with hc | hc
  · have hrange := alphanum_range hc
    simp only [isInk, Bool.and_eq_true, decide_eq_true_eq]
    omega
  · have hmarks : ∀ c ∈ "+-.".toList, isInk c = true := forall_of_all (by decide)
    exact hmarks c (List.contains_iff_mem.mp hc)

/-- What is written for a URL has nothing that readers pass over. -/
theorem Proper.readable_render {u : Url} (h : u.Proper) : readable u.render = u.render.toList := by
  have hscheme : ∀ c ∈ u.scheme.toList, isInk c = true := fun c hc =>
    ink_schemeChar (List.all_eq_true.mp h.scheme.chars c hc)
  have hquery : ∀ c ∈ tailText '?' u.query, isInk c = true :=
    ink_tailText (by decide) fun q hq c hc => (h.ink_query q hq c hc).1
  have hfragment : ∀ c ∈ tailText '#' u.fragment, isInk c = true :=
    ink_tailText (by decide) h.ink_fragment
  have hbody : tailText '?' u.query ++ tailText '#' u.fragment = [] → EndsInk u.bodyText := by
    intro hnil
    obtain ⟨hq, hf⟩ := List.append_eq_nil_iff.mp hnil
    exact h.endsInk_bodyText (tailText_eq_nil hq) (tailText_eq_nil hf)
  have htail : EndsInk (tailText '?' u.query ++ tailText '#' u.fragment) :=
    (endsInk_of_all hfragment).append fun _ => endsInk_of_all hquery
  have hlast : EndsInk (u.scheme.toList ++ ([':'] ++
      (u.bodyText ++ (tailText '?' u.query ++ tailText '#' u.fragment)))) :=
    ((htail.append hbody).append fun _ => endsInk_of_all (forall_of_all (by decide))).append
      fun hnil => by cases hnil
  refine readable_eq_self ?_ ?_ ?_ <;> rw [toList_render]
  · intro c hc
    simp only [List.mem_append, List.mem_cons] at hc
    rcases hc with hc | rfl | hc | hc | hc
    · exact plain_of_ink (hscheme c hc)
    · decide
    · exact (h.ink_bodyText c hc).1
    · exact plain_of_ink (hquery c hc)
    · exact plain_of_ink (hfragment c hc)
  · intro c hc
    have hhead := h.scheme.head
    cases htext : u.scheme.toList with
    | nil =>
        rw [htext] at hhead
        cases hhead
    | cons d rest =>
        rw [htext] at hc
        cases hc
        exact hscheme c (htext ▸ List.mem_cons_self)
  · exact hlast

/-! ### Paths -/

section

variable {kind : SchemeKind} {parts : List String} {name : List Char}

theorem takeWhile_name (hname : ∀ c ∈ name, kind.isSlash c = false) (parts : List String) :
    (name ++ pathText parts).takeWhile (fun c => !kind.isSlash c) = name := by
  have hstart : (pathText parts).takeWhile (fun c => !kind.isSlash c) = [] := by
    cases parts with
    | nil => rfl
    | cons first parts => simp [pathText, SchemeKind.isSlash]
  rw [List.takeWhile_append_of_pos fun c hc => by simp [hname c hc], hstart, List.append_nil]

theorem dropWhile_name (hname : ∀ c ∈ name, kind.isSlash c = false) (parts : List String) :
    (name ++ pathText parts).dropWhile (fun c => !kind.isSlash c) = pathText parts := by
  rw [List.dropWhile_append_of_pos fun c hc => by simp [hname c hc]]
  cases parts with
  | nil => rfl
  | cons first parts => simp [pathText, SchemeKind.isSlash]

theorem walkText_pathText (hparts : ∀ s ∈ parts, IsSegment kind s) (hsome : parts ≠ []) :
    walkText kind [] ((pathText parts).drop 1) = walk kind [] (parts.map String.toList) := by
  obtain ⟨first, parts, rfl⟩ := List.exists_cons_of_ne_nil hsome
  have hslash : kind.isSlash '/' = true := by simp [SchemeKind.isSlash]
  have hwhole : ∀ part ∈ parts.map String.toList, ∀ c ∈ part, kind.isSlash c = false := by
    intro part hpart
    obtain ⟨s, hs, rfl⟩ := List.mem_map.mp hpart
    exact (hparts s (List.mem_cons_of_mem _ hs)).whole
  have htext : (pathText (first :: parts)).drop 1 =
      first.toList ++ (parts.map String.toList).flatMap ('/' :: ·) := by
    simp [pathText]
  rw [walkText, htext, splitWhere_parts hslash hwhole (hparts first List.mem_cons_self).whole,
    List.map_cons]

theorem no_dots (hkind : kind ≠ .file) (hparts : ∀ s ∈ parts, IsSegment kind s) :
    ∀ s ∈ parts, IsSegment kind s ∧ isDoubleDot s.toList = false := by
  intro s hs
  refine ⟨hparts s hs, ?_⟩
  rw [Bool.eq_false_iff]
  exact fun hdots => hkind ((hparts s hs).double hdots).1

/-- A path that is not of a file is read as it was written. -/
theorem walkText_eq_self (hkind : kind ≠ .file) (hparts : ∀ s ∈ parts, IsSegment kind s)
    (hsome : parts ≠ []) : walkText kind [] ((pathText parts).drop 1) = parts := by
  rw [walkText_pathText hparts hsome,
    walk_segments (fun h => absurd h hkind) (no_dots hkind hparts), List.nil_append]

end

/-! ### Bodies -/

theorem isSlash_inAuthority {c : Char} (hc : inAuthority c = true) (kind : SchemeKind) :
    kind.isSlash c = false := by
  refine isSlash_eq_false ?_ ?_ kind <;> rintro rfl <;> exact absurd hc (by decide)

/-- No host is a drive letter, since a host holds no colon outside brackets, and no bar. -/
theorem isDriveLetter_host {host : String} (h : IsHost host) :
    isDriveLetter host.toList = false := by
  rw [Bool.eq_false_iff]
  intro hdrive
  obtain ⟨letter, mark, hhost, hletter, hmark⟩ := isDriveLetter_iff.mp hdrive
  rcases h with ⟨pieces, -, rfl⟩ | hplain
  · rw [toList_renderAddress6] at hhost
    obtain ⟨rfl, -⟩ := List.cons.inj hhost
    exact absurd hletter (by decide)
  · have hallowed := (hplain mark (by simp [hhost])).2
    rcases hmark with rfl | rfl <;> exact absurd hallowed (by decide)

theorem file?_render {host : String} {parts : List String} {p : Pieces} (hhost : IsFileHost host)
    (hparts : ∀ s ∈ parts, IsSegment .file s) (hsome : parts ≠ [])
    (hbody : p.body = '/' :: '/' :: (host.toList ++ pathText parts)) :
    file? none p =
      let path := walk .file [] (parts.map String.toList)
      some (fileWith (if startsWithDrive path then "" else host) path p) := by
  have hname : ∀ c ∈ host.toList, SchemeKind.file.isSlash c = false := fun c hc =>
    isSlash_inAuthority (inAuthority_fileHost hhost c hc) .file
  have hfile : file? none p = fileWithHost? (host.toList ++ pathText parts) p := by
    unfold file?
    rw [hbody]
    rfl
  rw [hfile, fileWithHost?, takeWhile_name hname, dropWhile_name hname]
  simp only [walkText_pathText hparts hsome]
  rcases hhost with rfl | ⟨hfixed, hhost, hlocal⟩
  · simp [isDriveLetter]
  · have hdrive := isDriveLetter_host hhost
    by_cases hvoid : host = ""
    · subst hvoid
      simp [isDriveLetter]
    · have hempty : host.toList.isEmpty = false := by simpa using hvoid
      simp [hdrive, hempty, hfixed, hlocal]

theorem withAuthority?_render {scheme : String} {a : Authority} {parts : List String} {p : Pieces}
    (hkind : schemeKind scheme ≠ .file) (ha : a.Proper scheme)
    (hparts : ∀ s ∈ parts, IsSegment (schemeKind scheme) s)
    (hsome : schemeKind scheme = .special → parts ≠ []) :
    withAuthority? scheme (schemeKind scheme) (a.render.toList ++ pathText parts) p =
      some ⟨scheme, some a, .segments parts, p.queryText (schemeKind scheme), p.fragmentText⟩ := by
  have hname : ∀ c ∈ a.render.toList, (schemeKind scheme).isSlash c = false := fun c hc =>
    isSlash_inAuthority (ha.inAuthority c hc) _
  rw [withAuthority?, takeWhile_name hname, dropWhile_name hname, authority?_render ha]
  by_cases hnil : parts = []
  · subst hnil
    have hother : schemeKind scheme = .other := by
      cases hscheme : schemeKind scheme with
      | file => exact absurd hscheme hkind
      | special => exact absurd rfl (hsome hscheme)
      | other => rfl
    simp [pathText, hother]
  · have hempty : (pathText parts).isEmpty = false := by
      obtain ⟨first, parts, rfl⟩ := List.exists_cons_of_ne_nil hnil
      rfl
    simp only [hempty, Bool.false_and, Bool.false_eq_true, if_false,
      walkText_eq_self hkind hparts hnil]
    rfl

theorem pathText_cons (first : String) (parts : List String) :
    pathText (first :: parts) = '/' :: (first.toList ++ pathText parts) :=
  rfl

/-- The slashes before an authority, of which a special scheme may have any number. -/
theorem drop_slashes {scheme : String} {a : Authority} {rest : List Char}
    (hkind : schemeKind scheme = .special) (ha : a.Proper scheme) :
    ('/' :: '/' :: (a.render.toList ++ rest)).drop
      (('/' :: '/' :: (a.render.toList ++ rest)).takeWhile SchemeKind.special.isSlash).length =
        a.render.toList ++ rest := by
  have hhost : a.host ≠ "" := fun hvoid => by
    cases hkind.symm.trans (ha.void hvoid).1
  have hsome : a.render.toList ≠ [] := by
    rw [Authority.toList_render]
    simp [hhost]
  obtain ⟨c, text, htext⟩ := List.exists_cons_of_ne_nil hsome
  have hslash : SchemeKind.special.isSlash c = false :=
    isSlash_inAuthority (ha.inAuthority c (htext ▸ List.mem_cons_self)) .special
  have hmark : SchemeKind.special.isSlash '/' = true := by decide
  simp [htext, hmark, hslash]

/-- A path without an authority does not look like one: a dot stands before an empty segment. -/
theorem exists_body_unnamed {u : Url} {parts : List String} (hauthority : u.authority = none)
    (hpath : u.path = .segments parts) (hparts : ∀ s ∈ parts, IsSegment .other s)
    (hsome : parts ≠ []) :
    ∃ body, u.bodyText = '/' :: body ∧ body.head? ≠ some '/' ∧
      walkText .other [] body = parts := by
  have hread := walkText_eq_self (by decide) hparts hsome
  obtain ⟨first, parts, rfl⟩ := List.exists_cons_of_ne_nil hsome
  rw [pathText_cons, List.drop_one, List.tail_cons] at hread
  cases hdot : u.needsDot with
  | true =>
      refine ⟨'.' :: '/' :: (first.toList ++ pathText parts), ?_, by simp, ?_⟩
      · rw [bodyText, hauthority, hpath, toList_pathRender, pathText_cons]
        simp [hdot]
      · have hdots : ∀ c ∈ ['.'], SchemeKind.other.isSlash c = false :=
          forall_of_all (by decide)
        have hslash : SchemeKind.other.isSlash '/' = true := by decide
        rw [walkText, ← List.singleton_append, splitWhere_append hdots hslash, walk,
          if_neg (by decide), if_pos (by decide), if_neg (by simpa using splitWhere_ne_nil _ _)]
        exact hread
  | false =>
      refine ⟨first.toList ++ pathText parts, ?_, ?_, hread⟩
      · rw [bodyText, hauthority, hpath, toList_pathRender, pathText_cons]
        simp [hdot]
      · intro hhead
        cases hfirst : first.toList with
        | nil =>
            cases parts with
            | nil => simp [hfirst, pathText] at hhead
            | cons second parts =>
                obtain rfl := String.toList_inj.mp (hfirst.trans String.toList_empty.symm)
                rw [needsDot, hauthority, hpath] at hdot
                cases hdot
        | cons c text =>
            rw [hfirst, List.cons_append, List.head?_cons] at hhead
            have hwhole := (hparts first List.mem_cons_self).whole c (by simp [hfirst])
            rw [Option.some.inj hhead] at hwhole
            cases hwhole

/-- The parts of a proper URL are found in its text. -/
theorem Proper.read_render {u : Url} (h : u.Proper) : ∃ p, Pieces.read
    (u.bodyText ++ (tailText '?' u.query ++ tailText '#' u.fragment)) = p ∧
      p.body = u.bodyText ∧ p.queryText (schemeKind u.scheme) = u.query ∧
        p.fragmentText = u.fragment := by
  have hmarks : ∀ c ∈ u.bodyText, c ≠ '?' ∧ c ≠ '#' := fun c hc =>
    ⟨(h.ink_bodyText c hc).2.1, (h.ink_bodyText c hc).2.2.1⟩
  exact ⟨_, read_tails hmarks fun q hq hc => (h.ink_query q hq _ hc).2 rfl, rfl,
    queryText_kept h.query, fragmentText_kept h.fragment⟩

/-- The scheme and the body of a proper URL are read as the settled URL. -/
theorem Proper.withScheme?_render {u : Url} (h : u.Proper) :
    withScheme? none u.scheme
      (u.bodyText ++ (tailText '?' u.query ++ tailText '#' u.fragment)) = some u.settled := by
  obtain ⟨p, hread, hbody, hquery, hfragment⟩ := h.read_render
  unfold withScheme?
  simp only [hread, Option.filter_none]
  obtain ⟨scheme, authority, path, query, fragment⟩ := u
  have hform := h.body
  simp only at hquery hfragment hform ⊢
  cases hform with
  | @bare text hkind hchars hhead =>
      have htext : p.body = text.toList := by simpa [bodyText, needsDot, Path.render] using hbody
      have hfixed : String.ofList (percentEncode isPlain text.toList) = text := by
        rw [percentEncode_eq_self admits_plain fun c hc => (hchars c hc).1, String.ofList_toList]
      rw [hkind] at hquery ⊢
      simp only [htext, hquery, hfragment]
      split
      · next heq => simp [heq] at hhead
      · next heq => simp [heq] at hhead
      · rw [hfixed]
        rfl
  | @file host parts hscheme hhost hparts hrooted =>
      subst hscheme
      have hsome : parts ≠ [] := by
        rcases hrooted with rfl | ⟨hsome, -⟩
        · simp
        · exact hsome
      have htext : p.body = '/' :: '/' :: (host.toList ++ pathText parts) := by
        rw [hbody, ← toList_renderHost, ← toList_pathRender]
        rfl
      have hread := file?_render hhost hparts hsome htext
      have hkind : schemeKind "file" = .file := by decide
      rw [hkind] at hquery ⊢
      simp only [hread, fileWith, hquery, hfragment]
      rfl
  | @named a parts hkind ha hparts hsome =>
      have htext : p.body = '/' :: '/' :: (a.render.toList ++ pathText parts) := by
        rw [hbody, bodyText, toList_pathRender]
        rfl
      have hread := withAuthority?_render (p := p) hkind ha hparts hsome
      have hfile : scheme ≠ "file" := fun h => hkind (h ▸ by decide)
      simp only [settled, if_neg hfile]
      cases hscheme : schemeKind scheme with
      | file => exact absurd hscheme hkind
      | special =>
          rw [hscheme] at hread hquery
          simp only [htext, drop_slashes hscheme ha, hread, hquery, hfragment]
      | other =>
          rw [hscheme] at hread hquery
          simp only [htext, hread, hquery, hfragment]
  | @unnamed parts hkind hparts hsome =>
      have hfile : scheme ≠ "file" := by
        rintro rfl
        cases hkind
      obtain ⟨body, htext, hhead, hwalk⟩ := @exists_body_unnamed
        ⟨scheme, none, .segments parts, query, fragment⟩ parts rfl rfl hparts hsome
      rw [htext] at hbody
      rw [hkind] at hquery ⊢
      simp only [settled, if_neg hfile, hbody, hquery, hfragment]
      split
      · next heq => simp [(List.cons.inj heq).2] at hhead
      · next heq => rw [← (List.cons.inj heq).2, hwalk]
      · next _ hnot => exact absurd rfl (hnot _)

/-- The text of a proper URL is read as the settled URL. -/
theorem Proper.parse?_render {u : Url} (h : u.Proper) : parse? u.render = some u.settled := by
  rw [parse?, h.readable_render, toList_render, splitScheme?_append h.scheme]
  exact h.withScheme?_render

end TickHost.Url
