import TickHost.Proofs.Percents
import TickHost.Proofs.Splits
import TickHost.Url.Parser

/-!
Paths in segments. A segment that was read is kept by every later reading: it is encoded already,
holds no slash, and is no dot segment, since encoding makes no dots. So a path is read as it was
written, up to what only file paths have: the names of a local path may be dot segments, and a
first segment may be a drive letter.
-/

namespace TickHost.Url

open Text

variable {kind : SchemeKind} {part : List Char} {parts : List (List Char)} {done : List String}

/-! ### Dots -/

/-- A dot, as it is or escaped. -/
def IsDot (d : List Char) : Prop :=
  d = ['.'] ∨ d = ['%', '2', 'e'] ∨ d = ['%', '2', 'E']

theorem isUpper_iff {c : Char} : c.isUpper = true ↔ 65 ≤ c.toNat ∧ c.toNat ≤ 90 :=
  decide_eq_true_iff

theorem isLower_iff {c : Char} : c.isLower = true ↔ 97 ≤ c.toNat ∧ c.toNat ≤ 122 :=
  Bool.and_eq_true_iff.trans (and_congr decide_eq_true_iff decide_eq_true_iff)

theorem alphanum_range {c : Char} (hc : c.isAlphanum = true) : 48 ≤ c.toNat ∧ c.toNat ≤ 122 := by
  have hdigit : c.isDigit = true ↔ 48 ≤ c.toNat ∧ c.toNat ≤ 57 := Char.isDigit_iff_toNat
  have hcases : (c.isUpper || c.isLower || c.isDigit) = true := hc
  simp only [Bool.or_eq_true, isUpper_iff, isLower_iff, hdigit] at hcases
  omega

/-- Only letters in upper case change in lower case. -/
theorem toLower_cases (c : Char) :
    c.isUpper = true ∧ c.toLower.toNat = c.toNat + 32 ∨ c.isUpper = false ∧ c.toLower = c := by
  cases hupper : c.isUpper with
  | true =>
      have hrange := isUpper_iff.mp hupper
      refine .inl ⟨rfl, ?_⟩
      unfold Char.toLower
      rw [dif_pos (of_decide_eq_true hupper)]
      change (c.toNat + 32) % 2 ^ 32 = c.toNat + 32
      omega
  | false => exact .inr ⟨rfl, dif_neg (of_decide_eq_false hupper)⟩

theorem toLower_eq_iff {c d : Char} (hd : d.isUpper = false) :
    c.toLower = d ↔ c = d ∨ c.isUpper = true ∧ c.toNat + 32 = d.toNat := by
  rcases toLower_cases c with ⟨hupper, hvalue⟩ | ⟨hupper, hsame⟩
  · have hne : c ≠ d := ne_of_test hupper hd
    rw [← hvalue, Char.toNat_inj]
    simp [hne, hupper]
  · simp [hsame, hupper]

/-- No letter is written as a mark or a digit in lower case. -/
theorem toLower_eq_mark {c d : Char} (hd : d.isUpper = false ∧ d.toNat < 97) :
    c.toLower = d ↔ c = d := by
  rw [toLower_eq_iff hd.1, isUpper_iff]
  refine or_iff_left fun h => ?_
  omega

theorem toLower_e {c : Char} : c.toLower = 'e' ↔ c = 'e' ∨ c = 'E' := by
  rw [toLower_eq_iff (by decide), isUpper_iff]
  have hvalues : 'e'.toNat = 101 ∧ 'E'.toNat = 69 := ⟨rfl, rfl⟩
  refine or_congr_right ?_
  rw [← Char.toNat_inj]
  omega

theorem isDot_iff {d : List Char} :
    IsDot d ↔ d.map Char.toLower = ['.'] ∨ d.map Char.toLower = ['%', '2', 'e'] := by
  refine ⟨?_, fun h => ?_⟩
  · rintro (rfl | rfl | rfl) <;> decide
  · have hmarks : ∀ c : Char, (c.toLower = '.' ↔ c = '.') ∧ (c.toLower = '%' ↔ c = '%') ∧
        (c.toLower = '2' ↔ c = '2') := fun c =>
      ⟨toLower_eq_mark (by decide), toLower_eq_mark (by decide), toLower_eq_mark (by decide)⟩
    simp only [List.map_eq_cons_iff, List.map_eq_nil_iff, hmarks, toLower_e] at h
    rcases h with ⟨_, _, rfl, rfl, rfl⟩ |
      ⟨_, _, rfl, rfl, _, _, rfl, rfl, _, _, rfl, rfl | rfl, rfl⟩
    · exact .inl rfl
    · exact .inr (.inl rfl)
    · exact .inr (.inr rfl)

theorem ofList_eq_iff {text : List Char} {s : String} :
    String.ofList text = s ↔ text = s.toList := by
  rw [← String.toList_inj, String.toList_ofList]

theorem isSingleDot_iff : isSingleDot part = true ↔ IsDot part := by
  simp only [isSingleDot, List.contains_cons, List.contains_nil, Bool.or_false, Bool.or_eq_true,
    beq_iff_eq, ofList_eq_iff]
  exact isDot_iff.symm

theorem isDoubleDot_iff :
    isDoubleDot part = true ↔ ∃ d d', IsDot d ∧ IsDot d' ∧ part = d ++ d' := by
  refine ⟨fun h => ?_, ?_⟩
  · have hsplit : ∃ e e', part.map Char.toLower = e ++ e' ∧ (e = ['.'] ∨ e = ['%', '2', 'e']) ∧
        (e' = ['.'] ∨ e' = ['%', '2', 'e']) := by
      simp only [isDoubleDot, List.contains_cons, List.contains_nil, Bool.or_false,
        Bool.or_eq_true, beq_iff_eq, ofList_eq_iff] at h
      rcases h with h | h | h | h
      · exact ⟨['.'], ['.'], h, .inl rfl, .inl rfl⟩
      · exact ⟨['%', '2', 'e'], ['.'], h, .inr rfl, .inl rfl⟩
      · exact ⟨['.'], ['%', '2', 'e'], h, .inl rfl, .inr rfl⟩
      · exact ⟨['%', '2', 'e'], ['%', '2', 'e'], h, .inr rfl, .inr rfl⟩
    obtain ⟨e, e', hparts, he, he'⟩ := hsplit
    obtain ⟨d, d', rfl, rfl, rfl⟩ := List.map_eq_append_iff.mp hparts
    exact ⟨d, d', isDot_iff.mpr he, isDot_iff.mpr he', rfl⟩
  · rintro ⟨d, d', rfl | rfl | rfl, rfl | rfl | rfl, rfl⟩ <;> decide

/-! ### Dots in encodings -/

/-- What an encoding starts with, unless it is an escape. -/
theorem percentEncode_head {kept : Char → Bool} {text tail : List Char} {c : Char} (hc : c ≠ '%')
    (h : percentEncode kept text = c :: tail) :
    ∃ rest, text = c :: rest ∧ percentEncode kept rest = tail := by
  cases text with
  | nil => cases h
  | cons d text =>
      rcases percentEncode_cons_cases kept d text with ⟨hkept, -⟩ | ⟨b, more, hescape, -⟩
      · obtain ⟨rfl, hrest⟩ := List.cons.inj (hkept.symm.trans h)
        exact ⟨text, rfl, hrest⟩
      · exact absurd (List.cons.inj (hescape.symm.trans h)).1.symm hc

/-- No dot comes from an encoding: a dot is kept, and so is an escape that was there before. -/
theorem percentEncode_dot {text d tail : List Char} (hd : IsDot d)
    (h : percentEncode keptInPath text = d ++ tail) :
    ∃ rest, text = d ++ rest ∧ percentEncode keptInPath rest = tail := by
  have hescaped : ∀ e, e = 'e' ∨ e = 'E' →
      percentEncode keptInPath text = '%' :: '2' :: e :: tail →
        ∃ rest, text = '%' :: '2' :: e :: rest ∧ percentEncode keptInPath rest = tail := by
    intro e he h
    cases text with
    | nil => cases h
    | cons c text =>
        rcases percentEncode_cons_cases keptInPath c text with
          ⟨hkept, -⟩ | ⟨b, more, hescape, hb, hnot⟩
        · obtain ⟨rfl, hrest⟩ := List.cons.inj (hkept.symm.trans h)
          obtain ⟨text', rfl, htwo⟩ := percentEncode_head (by decide) hrest
          have hsign : e ≠ '%' := by rcases he with rfl | rfl <;> decide
          obtain ⟨rest, rfl, htail⟩ := percentEncode_head hsign htwo
          exact ⟨rest, rfl, htail⟩
        · obtain ⟨-, heq⟩ := List.cons.inj (hescape.symm.trans h)
          obtain ⟨hhigh, heq⟩ := List.cons.inj heq
          obtain ⟨hlow, -⟩ := List.cons.inj heq
          have htwo := hexDigit?_upperDigit (show b / 16 < 16 by omega)
          have hfourteen := hexDigit?_upperDigit (show b % 16 < 16 by omega)
          rw [hhigh] at htwo
          rw [hlow] at hfourteen
          have hdigits : hexDigit? (UInt8.ofNat '2'.toNat) = some 2 ∧
              hexDigit? (UInt8.ofNat e.toNat) = some 14 := by
            rcases he with rfl | rfl <;> decide
          have hvalue : b = 46 := by
            have hb := Option.some.inj (hdigits.1.symm.trans htwo)
            have hb' := Option.some.inj (hdigits.2.symm.trans hfourteen)
            omega
          exact absurd (hnot (by omega)) (by rw [hvalue]; decide)
  rcases hd with rfl | rfl | rfl
  · exact percentEncode_head (by decide) h
  · exact hescaped 'e' (.inl rfl) h
  · exact hescaped 'E' (.inr rfl) h

theorem isSingleDot_percentEncode (h : isSingleDot part = false) :
    isSingleDot (percentEncode keptInPath part) = false := by
  rw [Bool.eq_false_iff] at h ⊢
  intro hdot
  have hd := isSingleDot_iff.mp hdot
  obtain ⟨rest, hpart, hrest⟩ := percentEncode_dot hd (List.append_nil _).symm
  rw [percentEncode_eq_nil hrest, List.append_nil] at hpart
  exact h (isSingleDot_iff.mpr (hpart ▸ hd))

theorem isDoubleDot_percentEncode (h : isDoubleDot part = false) :
    isDoubleDot (percentEncode keptInPath part) = false := by
  rw [Bool.eq_false_iff] at h ⊢
  intro hdots
  obtain ⟨d, d', hd, hd', heq⟩ := isDoubleDot_iff.mp hdots
  obtain ⟨rest, hpart, hrest⟩ := percentEncode_dot hd heq
  obtain ⟨rest', hpart', hrest'⟩ := percentEncode_dot hd' (hrest.trans (List.append_nil _).symm)
  rw [percentEncode_eq_nil hrest', List.append_nil] at hpart'
  exact h (isDoubleDot_iff.mpr ⟨d, d', hd, hd', by rw [hpart, hpart']⟩)

/-! ### Segments -/

/-- A segment as it stands in a path. Only in a file path it may be two dots. -/
structure IsSegment (kind : SchemeKind) (s : String) : Prop where
  kept : ∀ c ∈ s.toList, keptInPath c = true
  whole : ∀ c ∈ s.toList, kind.isSlash c = false
  single : isSingleDot s.toList = false
  double : isDoubleDot s.toList = true → kind = .file ∧ s = ".."

theorem isSegment_nil (kind : SchemeKind) : IsSegment kind "" :=
  ⟨by simp, by simp, by decide, fun h => absurd h (by decide)⟩

theorem isSlash_eq_false {c : Char} (hslash : c ≠ '/') (hback : c ≠ '\\') (kind : SchemeKind) :
    kind.isSlash c = false := by
  simp [SchemeKind.isSlash, hslash, hback]

theorem isDriveLetter_iff : isDriveLetter part = true ↔
    ∃ letter mark, part = [letter, mark] ∧ letter.isAlpha = true ∧ (mark = ':' ∨ mark = '|') := by
  unfold isDriveLetter
  split
  · next letter mark =>
      simp only [Bool.and_eq_true, Bool.or_eq_true, beq_iff_eq]
      refine ⟨fun h => ⟨letter, mark, rfl, h⟩, ?_⟩
      rintro ⟨_, _, ⟨rfl, rfl⟩, h⟩
      exact h
  · next h =>
      refine ⟨fun hfalse => absurd hfalse Bool.false_ne_true, ?_⟩
      rintro ⟨letter, mark, rfl, -⟩
      exact absurd rfl (h letter mark)

theorem kept_alpha {c : Char} (hc : c.isAlpha = true) :
    keptInPath c = true ∧ c ≠ '/' ∧ c ≠ '\\' := by
  have hrange := alphanum_range (Bool.or_eq_true_iff.mpr (.inl hc))
  have hplain : isPlain c = true := by
    simp only [isPlain, Bool.and_eq_true, decide_eq_true_eq]
    omega
  have hquotes : " \"<>\x60".toList.contains c = false := contains_eq_false (by decide) hc
  have hmarks : "#?\x7b\x7d".toList.contains c = false := contains_eq_false (by decide) hc
  exact ⟨by rw [keptInPath, keptInFragment, hplain, hquotes, hmarks]; rfl,
    ne_of_test hc (by decide), ne_of_test hc (by decide)⟩

theorem isDoubleDot_drive (h : isDriveLetter part = true) :
    isDoubleDot part = false := by
  obtain ⟨letter, mark, rfl, hletter, -⟩ := isDriveLetter_iff.mp h
  rw [Bool.eq_false_iff]
  intro hdouble
  obtain ⟨d, d', hd, hd', heq⟩ := isDoubleDot_iff.mp hdouble
  rcases hd with rfl | rfl | rfl <;> rcases hd' with rfl | rfl | rfl <;> simp at heq
  rw [heq.1] at hletter
  exact absurd hletter (by decide)

theorem isDriveLetter_colon {letter : Char} (hletter : letter.isAlpha = true) :
    isDriveLetter (String.ofList [letter, ':']).toList = true := by
  rw [String.toList_ofList, isDriveLetter_iff]
  exact ⟨letter, ':', rfl, hletter, .inl rfl⟩

theorem isSegment_drive {letter : Char} (hletter : letter.isAlpha = true) :
    IsSegment kind (String.ofList [letter, ':']) ∧ isDoubleDot [letter, ':'] = false := by
  obtain ⟨hkept, hslash, hback⟩ := kept_alpha hletter
  have hdouble : isDoubleDot [letter, ':'] = false := by
    rw [← String.toList_ofList (l := [letter, ':'])]
    exact isDoubleDot_drive (isDriveLetter_colon hletter)
  have hsingle : isSingleDot [letter, ':'] = false := by
    rw [Bool.eq_false_iff]
    intro hdot
    rcases isSingleDot_iff.mp hdot with h | h | h <;> simp at h
  refine ⟨⟨?_, ?_, ?_, ?_⟩, hdouble⟩ <;> rw [String.toList_ofList]
  · intro c hc
    rcases List.mem_cons.mp hc with rfl | hc
    · exact hkept
    · exact List.mem_singleton.mp hc ▸ by decide
  · intro c hc
    rcases List.mem_cons.mp hc with rfl | hc
    · exact isSlash_eq_false hslash hback kind
    · exact List.mem_singleton.mp hc ▸ isSlash_eq_false (by decide) (by decide) kind
  · exact hsingle
  · exact fun h => absurd h (Bool.eq_false_iff.mp hdouble)

/-- The text of an ordinary segment is a segment, and no dots. -/
theorem isSegment_segmentText (hwhole : ∀ c ∈ part, kind.isSlash c = false)
    (hsingle : isSingleDot part = false) (hdouble : isDoubleDot part = false) :
    IsSegment kind (segmentText kind done part) ∧
      isDoubleDot (segmentText kind done part).toList = false := by
  unfold segmentText
  split
  · next hdrive =>
      obtain ⟨letter, mark, rfl, hletter, -⟩ := isDriveLetter_iff.mp hdrive.2.2
      rw [String.toList_ofList]
      exact isSegment_drive hletter
  · have hdots := isDoubleDot_percentEncode hdouble
    refine ⟨⟨?_, ?_, ?_, ?_⟩, ?_⟩ <;> rw [String.toList_ofList]
    · exact fun c hc => kept_of_mem_percentEncode admits_path hc
    · intro c hc
      rcases mem_percentEncode hc with ⟨hmem, -⟩ | hescape
      · exact hwhole c hmem
      · have hall : "%0123456789ABCDEF".toList.all (fun c => !kind.isSlash c) = true := by
          cases kind <;> decide
        simpa using List.all_eq_true.mp hall c (List.contains_iff_mem.mp hescape)
    · exact isSingleDot_percentEncode hsingle
    · exact fun h => absurd h (Bool.eq_false_iff.mp hdots)
    · exact hdots

/-- An ordinary segment stays as it is, unless it is a drive letter at the start of a file path. -/
theorem segmentText_eq_self {s : String} (h : IsSegment kind s)
    (hdrive : kind = .file → done = [] → isDriveLetter s.toList = false) :
    segmentText kind done s.toList = s := by
  rw [segmentText, if_neg, percentEncode_eq_self admits_path h.kept, String.ofList_toList]
  rintro ⟨hkind, hdone, hletter⟩
  exact Bool.false_ne_true ((hdrive hkind hdone).symm.trans hletter)

/-! ### Walks -/

theorem mem_of_mem_leave {s : String} (h : s ∈ leave done) : s ∈ done := by
  unfold leave at h
  split at h
  · split at h
    · exact h
    · exact (List.dropLast_sublist done).subset h
  · cases h

/-- What holds of the segments before a walk, of new ones and of the empty one holds of all. -/
theorem forall_walk {P : String → Prop} (hdone : ∀ s ∈ done, P s) (hempty : P "")
    (hnew : ∀ (done : List String) (part : List Char), part ∈ parts → isSingleDot part = false →
      isDoubleDot part = false → P (segmentText kind done part)) :
    ∀ s ∈ walk kind done parts, P s := by
  induction parts generalizing done with
  | nil => exact hdone
  | cons part parts ih =>
      have hadd : ∀ (before : List String) (s : String), (∀ s ∈ before, P s) → P s →
          ∀ s' ∈ before ++ [s], P s' := by
        intro before s hbefore hs s' hs'
        rcases List.mem_append.mp hs' with hs' | hs'
        · exact hbefore s' hs'
        · exact List.mem_singleton.mp hs' ▸ hs
      have hleave : ∀ s ∈ leave done, P s := fun s hs => hdone s (mem_of_mem_leave hs)
      have hrest : ∀ done : List String, (∀ s ∈ done, P s) → ∀ s ∈ walk kind done parts, P s :=
        fun done hdone => ih hdone fun done part hpart =>
          hnew done part (List.mem_cons_of_mem _ hpart)
      rw [walk]
      split
      · split
        · exact hadd _ _ hleave hempty
        · exact hrest _ hleave
      next hdouble =>
      split
      · split
        · exact hadd _ _ hdone hempty
        · exact hrest _ hdone
      next hsingle =>
      refine hrest _ (hadd _ _ hdone (hnew done part List.mem_cons_self ?_ ?_))
      · exact Bool.eq_false_iff.mpr hsingle
      · exact Bool.eq_false_iff.mpr hdouble

theorem isSegment_walk (hdone : ∀ s ∈ done, IsSegment kind s)
    (hwhole : ∀ part ∈ parts, ∀ c ∈ part, kind.isSlash c = false) :
    ∀ s ∈ walk kind done parts, IsSegment kind s :=
  forall_walk hdone (isSegment_nil kind) fun _ part hpart hsingle hdouble =>
    (isSegment_segmentText (hwhole part hpart) hsingle hdouble).1

/-- A walk from the root leaves no dots. -/
theorem no_dots_walk (hwhole : ∀ part ∈ parts, ∀ c ∈ part, kind.isSlash c = false) :
    ∀ s ∈ walk kind [] parts, isDoubleDot s.toList = false :=
  forall_walk (by simp) (by decide) fun _ part hpart hsingle hdouble =>
    (isSegment_segmentText (hwhole part hpart) hsingle hdouble).2

theorem walk_ne_nil (hparts : parts ≠ []) : walk kind done parts ≠ [] := by
  induction parts generalizing done with
  | nil => exact absurd rfl hparts
  | cons part parts ih =>
      have hrest : ∀ done : List String, (parts = [] → done ≠ []) → walk kind done parts ≠ [] := by
        intro done hdone
        by_cases hnil : parts = []
        · rw [hnil, walk]
          exact hdone hnil
        · exact ih hnil
      have hadd : ∀ (before : List String) (s : String), before ++ [s] ≠ [] := by simp
      rw [walk]
      split
      · split
        · exact hadd _ _
        · next hmore => exact hrest _ fun hnil => absurd (by rw [hnil]; rfl) hmore
      split
      · split
        · exact hadd _ _
        · next hmore => exact hrest _ fun hnil => absurd (by rw [hnil]; rfl) hmore
      · exact hrest _ fun _ => hadd _ _

/-- A path of ordinary segments is walked to its end. -/
theorem walk_segments {segments : List String} (hdone : kind = .file → done ≠ [])
    (h : ∀ s ∈ segments, IsSegment kind s ∧ isDoubleDot s.toList = false) :
    walk kind done (segments.map String.toList) = done ++ segments := by
  induction segments generalizing done with
  | nil => simp [walk]
  | cons s segments ih =>
      obtain ⟨hsegment, hdouble⟩ := h s List.mem_cons_self
      have htext : segmentText kind done s.toList = s :=
        segmentText_eq_self hsegment fun hkind hnil => absurd hnil (hdone hkind)
      rw [List.map_cons, walk, if_neg (by simp [hdouble]), if_neg (by simp [hsegment.single]),
        htext, ih (by simp) fun s hs => h s (List.mem_cons_of_mem _ hs), List.append_assoc,
        List.singleton_append]

end TickHost.Url
