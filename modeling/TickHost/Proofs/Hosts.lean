import TickHost.Proofs.Addresses
import TickHost.Proofs.Percents
import TickHost.Proofs.Punycodes

/-!
A host that was read is read again as itself. Reading leaves nothing of a name that a second
reading would change: no escapes, no letters in upper case, nothing outside ASCII, and no part that
looks like Punycode without being it. Addresses are written in their shortest form.
-/

namespace TickHost.Url

open Utf8 Text

/-! ### Folding -/

/-- Not a capital of ASCII. -/
def IsLow (c : Char) : Prop :=
  c.toNat < 0x41 ∨ 0x5a < c.toNat

theorem foldChar_eq_self {c : Char} (hascii : c.toNat < 128) (hlow : IsLow c) :
    foldChar c = c := by
  have hupper : ¬(0x41 ≤ c.toNat ∧ c.toNat ≤ 0x5a) := by
    unfold IsLow at hlow
    omega
  unfold foldChar
  simp only
  rw [if_neg hupper, if_neg (by omega), if_neg (by omega), if_neg (by omega), if_neg (by omega),
    if_neg (by omega), if_neg (by omega), if_neg (by omega), if_neg (by omega), if_neg (by omega),
    if_neg (by omega), Char.ofNat_toNat]

theorem isLow_foldChar (c : Char) : IsLow (foldChar c) := by
  have hvalid : c.toNat < 0xd800 ∨ 0xdfff < c.toNat ∧ c.toNat < 0x110000 := c.valid
  have hnumber : ∀ n, (n < 0xd800 ∨ 0xdfff < n ∧ n < 0x110000) → (n < 0x41 ∨ 0x5a < n) →
      IsLow (Char.ofNat n) := by
    intro n hn hlow
    rwa [IsLow, toNat_char hn]
  have hbranch : ∀ (p : Prop) [Decidable p] (a b : Nat), (p → IsLow (Char.ofNat a)) →
      (¬p → IsLow (Char.ofNat b)) → IsLow (Char.ofNat (if p then a else b)) := by
    intro p _ a b ha hb
    by_cases hp : p
    · rw [if_pos hp]
      exact ha hp
    · rw [if_neg hp]
      exact hb hp
  unfold foldChar
  repeat refine hbranch _ _ _ (fun _ => hnumber _ (by omega) (by omega)) fun _ => ?_
  exact hnumber _ (by omega) (by omega)

/-! ### Labels -/

/-- A part of a domain that stays as it is. -/
structure IsLabel (label : List Char) : Prop where
  whole : '.' ∉ label
  ascii : ∀ c ∈ label, c.toNat < 128 ∧ IsLow c
  fixed : asciiLabel? label = some label

theorem any_wide_eq_false {label : List Char} (h : ∀ c ∈ label, c.toNat < 128) :
    (label.any fun c => decide (128 ≤ c.toNat)) = false := by
  rw [List.any_eq_false]
  intro c hc
  have := h c hc
  simp
  omega

/-- A label that has to be encoded is one when it is. -/
theorem isLabel_encoded {label : List Char} (hwhole : '.' ∉ label)
    (hlow : ∀ c ∈ label, c.toNat < 128 → IsLow c)
    (hwide : (label.any fun c => decide (128 ≤ c.toNat)) = true) :
    IsLabel ("xn--".toList ++ Punycode.encode label) := by
  have hchars : ∀ c ∈ "xn--".toList ++ Punycode.encode label,
      c.toNat < 128 ∧ IsLow c ∧ c ≠ '.' := by
    intro c hc
    rcases List.mem_append.mp hc with hc | hc
    · have hall : ∀ c ∈ "xn--".toList, c.toNat < 128 ∧ (c.toNat < 0x41 ∨ 0x5a < c.toNat) ∧
          c ≠ '.' := forall_of_all (by decide)
      exact hall c hc
    · rcases Punycode.mem_encode hc with ⟨hmem, hascii⟩ | rfl | hdigit
      · exact ⟨hascii, hlow c hmem hascii, fun heq => hwhole (heq ▸ hmem)⟩
      · exact ⟨by decide, .inl (by decide), by decide⟩
      · exact ⟨hdigit.plain.1, hdigit.plain.2.2.2, hdigit.plain.2.2.1⟩
  refine ⟨fun hdot => (hchars _ hdot).2.2 rfl,
    fun c hc => ⟨(hchars c hc).1, (hchars c hc).2.1⟩, ?_⟩
  have hnone := any_wide_eq_false fun c hc => (hchars c hc).1
  have hform : "xn--".toList ++ Punycode.encode label =
      'x' :: 'n' :: '-' :: '-' :: Punycode.encode label := rfl
  unfold asciiLabel?
  rw [hnone, if_neg Bool.false_ne_true, hform]
  simp [Punycode.decode?_encode, hwide]

/-- A label of ASCII is left as it is, if it is accepted. -/
theorem asciiLabel?_eq_self {label written : List Char}
    (hwide : (label.any fun c => decide (128 ≤ c.toNat)) = false)
    (h : asciiLabel? label = some written) : label = written := by
  unfold asciiLabel? at h
  rw [hwide, if_neg Bool.false_ne_true] at h
  split at h
  · next rest =>
      cases hdecode : Punycode.decode? rest with
      | none =>
          rw [hdecode] at h
          cases h
      | some name =>
          rw [hdecode] at h
          simp only at h
          split at h
          · exact Option.some.inj h
          · cases h
  · exact Option.some.inj h

theorem isLabel_of_ascii {label written : List Char} (hwhole : '.' ∉ label)
    (hlow : ∀ c ∈ label, c.toNat < 128 → IsLow c) (h : asciiLabel? label = some written) :
    IsLabel written := by
  cases hwide : label.any fun c => decide (128 ≤ c.toNat) with
  | true =>
      have hlabel := isLabel_encoded hwhole hlow hwide
      unfold asciiLabel? at h
      rw [if_pos hwide] at h
      cases h
      exact hlabel
  | false =>
      have hascii : ∀ c ∈ label, c.toNat < 128 := fun c hc => by
        have hnarrow := List.any_eq_false.mp hwide c hc
        simpa using hnarrow
      obtain rfl := asciiLabel?_eq_self hwide h
      exact ⟨hwhole, fun c hc => ⟨hascii c hc, hlow c hc (hascii c hc)⟩, h⟩

/-! ### Domains -/

/-- A domain that stays as it is. -/
structure IsDomain (domain : List Char) : Prop where
  labels : ∃ labels, labels ≠ [] ∧ (∀ label ∈ labels, IsLabel label) ∧
    domain = ['.'].intercalate labels
  allowed : ∀ c ∈ domain, isForbiddenInDomain c = false

theorem IsDomain.ascii {domain : List Char} (h : IsDomain domain) :
    ∀ c ∈ domain, c.toNat < 128 ∧ IsLow c := by
  obtain ⟨labels, -, hlabels, rfl⟩ := h.labels
  intro c hc
  rcases mem_intercalate hc with rfl | ⟨label, hlabel, hc⟩
  · exact ⟨by decide, .inl (by decide)⟩
  · exact (hlabels label hlabel).ascii c hc

theorem IsDomain.fixed {domain : List Char} (h : IsDomain domain) :
    domainToAscii? domain = some domain := by
  have hascii := h.ascii
  have hallowed := h.allowed
  obtain ⟨labels, hsome, hlabels, rfl⟩ := h.labels
  have hfold : ((['.'].intercalate labels).filter (· ≠ '\xad')).map foldChar =
      ['.'].intercalate labels := by
    have hfilter : (['.'].intercalate labels).filter (· ≠ '\xad') = ['.'].intercalate labels := by
      refine List.filter_eq_self.mpr fun c hc => decide_eq_true ?_
      rintro rfl
      exact absurd (hascii _ hc).1 (by decide)
    rw [hfilter]
    exact (List.map_congr_left fun c hc =>
      foldChar_eq_self (hascii c hc).1 (hascii c hc).2).trans (List.map_id _)
  have hread : labels.mapM asciiLabel? = some labels :=
    mapM_eq_self fun label hlabel => (hlabels label hlabel).fixed
  unfold domainToAscii?
  simp only [hfold, splitEvery_intercalate hsome fun label hlabel => (hlabels label hlabel).whole,
    hread, Option.bind_eq_bind, Option.bind_some]
  rw [if_neg]
  rw [Bool.not_eq_true, List.any_eq_false]
  exact fun c hc => by simp [hallowed c hc]

theorem isDomain_of_read {name domain : List Char} (h : domainToAscii? name = some domain) :
    IsDomain domain := by
  unfold domainToAscii? at h
  simp only at h
  obtain ⟨labels, hlabels, h⟩ := Option.bind_eq_some_iff.mp h
  split at h
  · cases h
  next hforbidden =>
  cases h
  have hlow : ∀ c ∈ (name.filter (· ≠ '\xad')).map foldChar, IsLow c := by
    intro c hc
    obtain ⟨d, -, rfl⟩ := List.mem_map.mp hc
    exact isLow_foldChar d
  refine ⟨⟨labels, ?_, ?_, rfl⟩, ?_⟩
  · rintro rfl
    have hlength := length_of_mapM hlabels
    exact splitWhere_ne_nil _ _ (List.length_eq_zero_iff.mp hlength.symm)
  · intro label hlabel
    obtain ⟨part, hpart, hread⟩ := exists_of_mem_mapM hlabels hlabel
    have hmem : ∀ c ∈ part, c ∈ (name.filter (· ≠ '\xad')).map foldChar ∧ (c == '.') = false :=
      fun c hc => mem_splitWhere hpart hc
    exact isLabel_of_ascii (fun hdot => absurd (hmem _ hdot).2 (by simp))
      (fun c hc _ => hlow c (hmem c hc).1) hread
  · intro c hc
    rw [Bool.not_eq_true, List.any_eq_false] at hforbidden
    simpa using hforbidden c hc

theorem IsDomain.plain {domain : List Char} (h : IsDomain domain) :
    ∀ c ∈ domain, isPlain c = true ∧ isForbiddenInHost c = false ∧ c ≠ '%' := by
  intro c hc
  have hascii := (h.ascii c hc).1
  have hallowed := h.allowed c hc
  simp only [isForbiddenInDomain, Bool.or_eq_false_iff, decide_eq_false_iff_not,
    beq_eq_false_iff_ne] at hallowed
  obtain ⟨⟨⟨hhost, hcontrol⟩, hsign⟩, hdelete⟩ := hallowed
  refine ⟨?_, hhost, hsign⟩
  simp only [isPlain, Bool.and_eq_true, decide_eq_true_eq]
  omega

/-- Decoding changes nothing in a domain. -/
theorem IsDomain.decoded {domain : List Char} (h : IsDomain domain) :
    decodeLossy (percentDecode (encode domain)) = domain := by
  have hsign : ∀ b ∈ encode domain, b ≠ 0x25 := by
    rintro b hb rfl
    obtain ⟨c, hc, hvalue⟩ := mem_of_mem_encode hb (by decide)
    exact (h.plain c hc).2.2 (Char.toNat_inj.mp hvalue)
  rw [percentDecode_eq_self hsign, decodeLossy_encode]

theorem isDomain_address4 (n : Nat) : IsDomain (renderAddress4 n).toList := by
  have hdigit : ∀ c : Char, c.isDigit = true → c.toNat < 128 ∧ IsLow c ∧ c ≠ '.' ∧ c ≠ 'x' ∧
      isForbiddenInDomain c = false := by
    intro c hc
    have hrange : 48 ≤ c.toNat ∧ c.toNat ≤ 57 := Char.isDigit_iff_toNat.mp hc
    have hhost : isForbiddenInHost c = false := contains_eq_false (by decide) hc
    have hsign : c ≠ '%' := ne_of_test hc (by decide)
    refine ⟨by omega, .inl (by omega), ne_of_test hc (by decide), ne_of_test hc (by decide), ?_⟩
    simp only [isForbiddenInDomain, Bool.or_eq_false_iff, decide_eq_false_iff_not,
      beq_eq_false_iff_ne]
    exact ⟨⟨⟨hhost, by omega⟩, hsign⟩, by omega⟩
  refine ⟨⟨_, List.cons_ne_nil _ _, fun label hlabel => ?_, toList_renderAddress4 n⟩, ?_⟩
  · have hall := (isDigit_of_mem_bytes hlabel).2
    refine ⟨fun h => (hdigit _ (hall _ h)).2.2.1 rfl,
      fun c hc => ⟨(hdigit c (hall c hc)).1, (hdigit c (hall c hc)).2.1⟩, ?_⟩
    unfold asciiLabel?
    rw [any_wide_eq_false fun c hc => (hdigit c (hall c hc)).1, if_neg Bool.false_ne_true]
    split
    · exact absurd rfl (hdigit _ (hall _ List.mem_cons_self)).2.2.2.1
    · rfl
  · intro c hc
    rcases isDigit_of_mem_address4 hc with rfl | hc
    · decide
    · exact (hdigit c hc).2.2.2.2

/-! ### Hosts -/

/-- A host as it stands in a URL. -/
def IsHost (host : String) : Prop :=
  (∃ pieces, IsAddress6 pieces ∧ host = renderAddress6 pieces) ∨
    ∀ c ∈ host.toList, isPlain c = true ∧ isForbiddenInHost c = false

theorem IsDomain.isHost {domain : List Char} (h : IsDomain domain) :
    IsHost (String.ofList domain) := by
  refine .inr fun c hc => ?_
  rw [String.toList_ofList] at hc
  exact ⟨(h.plain c hc).1, (h.plain c hc).2.1⟩

theorem head?_ne_bracket {text : List Char} (h : ∀ c ∈ text, isForbiddenInHost c = false) :
    text.head? ≠ some '[' := fun hhead =>
  absurd (h _ (List.mem_of_head? hhead)) (by decide)

theorem bracketed?_cases {text : List Char} {host : String} (h : bracketed? text = some host) :
    ∃ pieces, IsAddress6 pieces ∧ host = renderAddress6 pieces := by
  unfold bracketed? at h
  split at h
  · obtain ⟨pieces, hread, rfl⟩ := Option.map_eq_some_iff.mp h
    exact ⟨pieces, isAddress6_of_read hread, rfl⟩
  · cases h

theorem address4?_cases {domain : List Char} {host : String} (h : address4? domain = some host) :
    ∃ n, host = renderAddress4 n := by
  unfold address4? at h
  simp only at h
  split at h
  · cases h
  obtain ⟨numbers, -, h⟩ := Option.bind_eq_some_iff.mp h
  obtain ⟨last, -, h⟩ := Option.bind_eq_some_iff.mp h
  split at h
  · cases h
  · exact ⟨_, (Option.some.inj h).symm⟩

theorem specialHost?_domain {domain : List Char} (h : IsDomain domain) (hsome : domain ≠ []) :
    specialHost? domain =
      if endsInNumber domain then address4? domain else some (String.ofList domain) := by
  have hempty : domain.isEmpty = false := by simpa using hsome
  rw [specialHost?, if_neg (head?_ne_bracket fun c hc => (h.plain c hc).2.1), h.decoded, h.fixed]
  simp only [Option.bind_eq_bind, Option.bind_some, hempty, Bool.false_eq_true, if_false]

/-- The host of a special scheme is an address or a domain, and is read again as itself. -/
theorem specialHost?_fixed {text : List Char} {host : String} (h : specialHost? text = some host) :
    specialHost? host.toList = some host ∧ IsHost host ∧ host ≠ "" := by
  unfold specialHost? at h
  split at h
  · obtain ⟨pieces, hpieces, rfl⟩ := bracketed?_cases h
    have hrender := toList_renderAddress6 pieces
    refine ⟨?_, .inl ⟨pieces, hpieces, rfl⟩, ?_⟩
    · rw [specialHost?, if_pos (by rw [hrender]; rfl), bracketed?_render hpieces]
    · rintro hempty
      rw [hempty] at hrender
      cases hrender
  obtain ⟨domain, hdomain, h⟩ := Option.bind_eq_some_iff.mp h
  have hfixed := isDomain_of_read hdomain
  split at h
  · cases h
  next hsome =>
  have hsome : domain ≠ [] := by simpa using hsome
  split at h
  · obtain ⟨n, rfl⟩ := address4?_cases h
    have hnumber := isDomain_address4 n
    have hne : (renderAddress4 n).toList ≠ [] := by
      intro hempty
      have hparts := splitEvery_address4 n
      rw [hempty] at hparts
      cases congrArg List.length hparts
    refine ⟨?_, ?_, fun hempty => hne (by rw [hempty]; rfl)⟩
    · rw [specialHost?_domain hnumber hne, if_pos (endsInNumber_address4 n), address4?_render]
    · have hhost := hnumber.isHost
      rwa [String.ofList_toList] at hhost
  · next hname =>
      obtain rfl := Option.some.inj h
      refine ⟨?_, hfixed.isHost, ?_⟩
      · rw [String.toList_ofList, specialHost?_domain hfixed hsome, if_neg hname]
      · intro hempty
        exact hsome (by rw [← String.toList_ofList (l := domain), hempty]; rfl)

/-- Any other host is read again as itself, too. -/
theorem otherHost?_fixed {text : List Char} {host : String} (h : otherHost? text = some host) :
    otherHost? host.toList = some host ∧ IsHost host := by
  unfold otherHost? at h
  split at h
  · obtain ⟨pieces, hpieces, rfl⟩ := bracketed?_cases h
    refine ⟨?_, .inl ⟨pieces, hpieces, rfl⟩⟩
    rw [otherHost?, if_pos (by rw [toList_renderAddress6]; rfl), bracketed?_render hpieces]
  split at h
  · cases h
  next hforbidden =>
  obtain rfl := Option.some.inj h
  have hchars : ∀ c ∈ percentEncode isPlain text,
      isPlain c = true ∧ isForbiddenInHost c = false := by
    intro c hc
    refine ⟨kept_of_mem_percentEncode admits_plain hc, ?_⟩
    rcases mem_percentEncode hc with ⟨hmem, -⟩ | hescape
    · rw [Bool.not_eq_true, List.any_eq_false] at hforbidden
      simpa using hforbidden c hmem
    · have hall : "%0123456789ABCDEF".toList.all (fun c => !isForbiddenInHost c) = true := by decide
      simpa using List.all_eq_true.mp hall c (List.contains_iff_mem.mp hescape)
  have hany : (percentEncode isPlain text).any isForbiddenInHost = false := by
    rw [List.any_eq_false]
    exact fun c hc => by simp [(hchars c hc).2]
  refine ⟨?_, .inr fun c hc => ?_⟩
  · rw [String.toList_ofList, otherHost?, if_neg (head?_ne_bracket fun c hc => (hchars c hc).2),
      hany, if_neg Bool.false_ne_true,
      percentEncode_eq_self admits_plain fun c hc => (hchars c hc).1]
  · rw [String.toList_ofList] at hc
    exact hchars c hc

/-- Only an empty text names no host. -/
theorem otherHost?_void {text : List Char} (h : otherHost? text = some "") : text = [] := by
  unfold otherHost? at h
  split at h
  · obtain ⟨pieces, -, hempty⟩ := bracketed?_cases h
    have hrender := toList_renderAddress6 pieces
    rw [← hempty] at hrender
    cases hrender
  split at h
  · cases h
  · have hencoded := congrArg String.toList (Option.some.inj h)
    rw [String.toList_ofList] at hencoded
    exact percentEncode_eq_nil hencoded

end TickHost.Url
