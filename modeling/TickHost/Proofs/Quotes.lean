import TickHost.Proofs.Splits
import TickHost.Toml.Quote

/-!
Quoted text is read as the text that was quoted, in each of the four forms that a writer may take.
The inside of a form is read character by character, and where the text has quotes of its own it
matters what comes next: only three quotes in a row end a form with triple quotes, and of a longer
row the last three.
-/

namespace TickHost.Toml

variable {text more rest tail : List Char} {c : Char}

/-! ### Single characters -/

/-- A character that only an escape can write. -/
theorem scalar?_escaped (h : c.toNat < 0x20 ∨ c.toNat = 0x7f) :
    scalar? ['0', '0', upperHex (c.toNat / 16), upperHex (c.toNat % 16)] = some c := by
  have hall : ∀ n < 0x80, n < 0x20 ∨ n = 0x7f →
      scalar? ['0', '0', upperHex (n / 16), upperHex (n % 16)] = some (Char.ofNat n) := by decide
  rw [hall c.toNat (by omega) h, Char.ofNat_toNat]

/-- What follows the backslash of an escape: a letter, and then what it needs. -/
def Escapes (tail : List Char) (c : Char) : Prop :=
  ∀ rest, escape? (tail ++ rest) = some (c, rest) ∧ hidesLineEnd (tail ++ rest) = false

/-- A character is escaped, or it is shown and means nothing in quotes. -/
theorem escapeChar_cases (c : Char) :
    (∃ tail, escapeChar c = '\\' :: tail ∧ Escapes tail c) ∨
      escapeChar c = [c] ∧ isShown c = true ∧ c ≠ '"' ∧ c ≠ '\\' ∧ c ≠ '\r' := by
  unfold escapeChar
  by_cases hb : c = '\x08'
  · subst hb
    exact .inl ⟨['b'], rfl, fun _ => ⟨rfl, rfl⟩⟩
  by_cases ht : c = '\t'
  · subst ht
    exact .inl ⟨['t'], rfl, fun _ => ⟨rfl, rfl⟩⟩
  by_cases hn : c = '\n'
  · subst hn
    exact .inl ⟨['n'], rfl, fun _ => ⟨rfl, rfl⟩⟩
  by_cases hf : c = '\x0c'
  · subst hf
    exact .inl ⟨['f'], rfl, fun _ => ⟨rfl, rfl⟩⟩
  by_cases hr : c = '\r'
  · subst hr
    exact .inl ⟨['r'], rfl, fun _ => ⟨rfl, rfl⟩⟩
  by_cases hq : c = '"'
  · subst hq
    exact .inl ⟨['"'], rfl, fun _ => ⟨rfl, rfl⟩⟩
  by_cases hs : c = '\\'
  · subst hs
    exact .inl ⟨['\\'], rfl, fun _ => ⟨rfl, rfl⟩⟩
  simp only [hb, ht, hn, hf, hr, hq, hs, if_false]
  split
  · rename_i hcontrol
    refine .inl ⟨_, rfl, fun rest => ⟨?_, rfl⟩⟩
    simp only [List.cons_append, List.nil_append, escape?, scalar?_escaped hcontrol,
      Option.map_some]
  · rename_i hplain
    refine .inr ⟨rfl, ?_, hq, hs, hr⟩
    simp only [isShown, Bool.or_eq_true, Bool.and_eq_true, decide_eq_true_eq, beq_iff_eq]
    omega

theorem escapeChar_head_ne (c : Char) : ∃ d tail, escapeChar c = d :: tail ∧ d ≠ '"' := by
  rcases escapeChar_cases c with ⟨tail, htail, -⟩ | ⟨hplain, -, hquote, -⟩
  · exact ⟨_, _, htail, by decide⟩
  · exact ⟨_, _, hplain, hquote⟩

/-! ### Basic text -/

theorem basicText_close : basicText ('"' :: rest) = some ([], rest) := by
  rw [basicText, if_pos rfl]

theorem basicText_escape (h : Escapes tail c) : basicText ('\\' :: (tail ++ more)) =
    (basicText more).map fun (text, rest) => (c :: text, rest) := by
  rw [basicText, if_neg (by decide), if_pos rfl]
  split
  · rename_i hnone
    cases hnone.symm.trans (h more).1
  · rename_i hsome
    cases hsome.symm.trans (h more).1
    rfl

theorem basicText_shown (hshown : isShown c = true) (hquote : c ≠ '"') (hslash : c ≠ '\\') :
    basicText (c :: more) = (basicText more).map fun (text, rest) => (c :: text, rest) := by
  rw [basicText, if_neg hquote, if_neg hslash, if_pos hshown]

/-- Every text can be written as a basic one. -/
theorem basicText_escaped (text rest : List Char) :
    basicText (text.flatMap escapeChar ++ '"' :: rest) = some (text, rest) := by
  induction text with
  | nil => exact basicText_close
  | cons c text ih =>
      rw [List.flatMap_cons, List.append_assoc]
      rcases escapeChar_cases c with ⟨tail, htail, hescapes⟩ | ⟨hplain, hshown, hquote, hslash, -⟩
      · rw [htail, List.cons_append, basicText_escape hescapes, ih]
        rfl
      · rw [hplain, List.singleton_append, basicText_shown hshown hquote hslash, ih]
        rfl

/-! ### Basic text over several lines -/

theorem longBasicText_close (hrest : rest.head? ≠ some '"') :
    longBasicText ('"' :: '"' :: '"' :: rest) = some ([], rest) ∧
      longBasicText ('"' :: '"' :: '"' :: '"' :: rest) = some (['"'], rest) ∧
        longBasicText ('"' :: '"' :: '"' :: '"' :: '"' :: rest) = some (['"', '"'], rest) := by
  have hnot : ∀ more, rest ≠ '"' :: more := by
    rintro more rfl
    exact hrest rfl
  refine ⟨?_, ?_, ?_⟩ <;> rw [longBasicText] <;> simp [hnot]

theorem longBasicText_escape (h : Escapes tail c) : longBasicText ('\\' :: (tail ++ more)) =
    (longBasicText more).map fun (text, rest) => (c :: text, rest) := by
  rw [longBasicText, if_pos rfl, (h more).2, if_neg (by decide)]
  all_goals try simp
  split
  · rename_i hnone
    cases hnone.symm.trans (h more).1
  · rename_i hsome
    cases hsome.symm.trans (h more).1
    rfl

/-- A character that stands for itself. A quote does so if it does not begin a row of three. -/
theorem longBasicText_shown (hshown : isShown c = true ∨ c = '\n') (hslash : c ≠ '\\')
    (hreturn : c ≠ '\r') (hrow : c = '"' → ∀ later, more ≠ '"' :: '"' :: later) :
    longBasicText (c :: more) = (longBasicText more).map fun (text, rest) => (c :: text, rest) := by
  rw [longBasicText, if_neg hslash, if_pos (by simpa using hshown)]
  all_goals grind

theorem escapeLong_cons_ne (hc : c ≠ '"') (quotes : Nat) (text : List Char) :
    escapeLong quotes (c :: text) =
      (if c = '\n' then ['\n'] else escapeChar c) ++ escapeLong 0 text := by
  rw [escapeLong, if_neg hc]
  split <;> rfl

/-- What is written after two quotes in a row does not begin with a third one. -/
theorem escapeLong_head_ne (quotes : Nat) (htext : text ≠ [])
    (hrow : 2 ≤ quotes ∨ text.head? ≠ some '"') :
    ∃ d tail, escapeLong quotes text = d :: tail ∧ d ≠ '"' := by
  obtain ⟨c, text, rfl⟩ := List.exists_cons_of_ne_nil htext
  by_cases hc : c = '"'
  · subst hc
    have hfull : ¬quotes < 2 := Nat.not_lt.mpr (hrow.resolve_right (by simp))
    rw [escapeLong, if_pos rfl, if_neg hfull]
    exact ⟨_, _, rfl, by decide⟩
  · rw [escapeLong_cons_ne hc]
    split
    · exact ⟨_, _, rfl, by decide⟩
    · obtain ⟨d, tail, hd, hne⟩ := escapeChar_head_ne c
      exact ⟨d, tail ++ escapeLong 0 text, by rw [hd]; rfl, hne⟩

/-- Two more quotes follow a quote only at the end. -/
theorem escapeLong_row {quotes : Nat} (htext : text ≠ [])
    (hlast : text = ['"'] → quotes ≠ 0) (more later : List Char) :
    escapeLong (quotes + 1) text ++ more ≠ '"' :: '"' :: later := by
  intro heq
  obtain ⟨c, text, rfl⟩ := List.exists_cons_of_ne_nil htext
  by_cases hfirst : quotes = 0 ∧ c = '"'
  · obtain ⟨rfl, rfl⟩ := hfirst
    have hmore : text ≠ [] := fun h => hlast (by rw [h]) rfl
    obtain ⟨d, tail, hd, hne⟩ := escapeLong_head_ne 2 hmore (.inl (Nat.le_refl 2))
    rw [escapeLong, if_pos rfl, if_pos (by decide), hd] at heq
    exact hne (List.cons.inj (List.cons.inj heq).2).1
  · have hrow : 2 ≤ quotes + 1 ∨ (c :: text).head? ≠ some '"' := by
      rw [List.head?_cons, ne_eq, Option.some.injEq]
      grind
    obtain ⟨d, tail, hd, hne⟩ := escapeLong_head_ne (quotes + 1) htext hrow
    rw [hd] at heq
    exact hne (List.cons.inj heq).1

/-- Every text can be written between triple quotes. What a quote means depends on the row that it
is in, of which `quotes` were read already. -/
theorem longBasicText_escaped (hrest : rest.head? ≠ some '"') (quotes : Nat) (text : List Char) :
    longBasicText (escapeLong quotes text ++ '"' :: '"' :: '"' :: rest) = some (text, rest) := by
  obtain ⟨hnone, hone, htwo⟩ := longBasicText_close hrest
  induction text generalizing quotes with
  | nil => exact hnone
  | cons c text ih =>
      by_cases hc : c = '"'
      · subst hc
        rw [escapeLong, if_pos rfl]
        split
        · -- At the end, this quote is read together with the closing ones.
          by_cases hend : text = []
          · subst hend
            exact hone
          by_cases hlast : text = ['"'] ∧ quotes = 0
          · obtain ⟨rfl, rfl⟩ := hlast
            exact htwo
          have hrow := escapeLong_row hend fun htext hzero => hlast ⟨htext, hzero⟩
          rw [List.cons_append, longBasicText_shown (.inl rfl) (by decide) (by decide)
            (fun _ => hrow _), ih]
          rfl
        · have hescapes : Escapes ['"'] '"' := fun _ => ⟨rfl, rfl⟩
          change longBasicText ('\\' :: (['"'] ++ (_ ++ '"' :: '"' :: '"' :: rest))) = _
          rw [longBasicText_escape hescapes, ih]
          rfl
      · rw [escapeLong_cons_ne hc, List.append_assoc]
        split
        · rename_i hline
          subst hline
          rw [List.singleton_append, longBasicText_shown (.inr rfl) (by decide) (by decide)
            (fun hquote => absurd hquote hc), ih]
          rfl
        · rcases escapeChar_cases c with
            ⟨tail, htail, hescapes⟩ | ⟨hplain, hshown, -, hslash, hreturn⟩
          · rw [htail, List.cons_append, longBasicText_escape hescapes, ih]
            rfl
          · rw [hplain, List.singleton_append, longBasicText_shown (.inl hshown) hslash hreturn
              (fun hquote => absurd hquote hc), ih]
            rfl

/-! ### Literal text -/

theorem literalText_plain (hquote : '\x27' ∉ text) (hshown : ∀ c ∈ text, isShown c = true) :
    literalText (text ++ '\x27' :: rest) = some (text, rest) := by
  induction text with
  | nil => rfl
  | cons c text ih =>
      obtain ⟨hne, hmore⟩ := not_or.mp (mt List.mem_cons.mpr hquote)
      rw [List.cons_append, literalText, if_neg (Ne.symm hne), if_pos (hshown c List.mem_cons_self),
        ih hmore fun d hd => hshown d (List.mem_cons_of_mem c hd)]
      rfl

theorem longLiteralText_close (hrest : rest.head? ≠ some '\x27') :
    longLiteralText ('\x27' :: '\x27' :: '\x27' :: rest) = some ([], rest) ∧
      longLiteralText ('\x27' :: '\x27' :: '\x27' :: '\x27' :: rest) = some (['\x27'], rest) ∧
        longLiteralText ('\x27' :: '\x27' :: '\x27' :: '\x27' :: '\x27' :: rest) =
          some (['\x27', '\x27'], rest) := by
  have hnot : ∀ more, rest ≠ '\x27' :: more := by
    rintro more rfl
    exact hrest rfl
  refine ⟨?_, ?_, ?_⟩ <;> rw [longLiteralText] <;> simp [hnot]

theorem longLiteralText_shown (hshown : isShown c = true ∨ c = '\n') (hreturn : c ≠ '\r')
    (hrow : c = '\x27' → ∀ later, more ≠ '\x27' :: '\x27' :: later) :
    longLiteralText (c :: more) =
      (longLiteralText more).map fun (text, rest) => (c :: text, rest) := by
  rw [longLiteralText, if_pos (by simpa using hshown)]
  all_goals grind

/-- A text without three quotes in a row stands for itself between triple quotes. -/
theorem longLiteralText_plain (hrest : rest.head? ≠ some '\x27')
    (hrows : ∀ before after, text ≠ before ++ '\x27' :: '\x27' :: '\x27' :: after)
    (hshown : ∀ c ∈ text, (isShown c = true ∨ c = '\n') ∧ c ≠ '\r') :
    longLiteralText (text ++ '\x27' :: '\x27' :: '\x27' :: rest) = some (text, rest) := by
  obtain ⟨hnone, hone, htwo⟩ := longLiteralText_close hrest
  induction text with
  | nil => exact hnone
  | cons c text ih =>
      have hmore := ih (fun before after h => hrows (c :: before) after (by rw [h]; rfl))
        fun d hd => hshown d (List.mem_cons_of_mem c hd)
      obtain ⟨hc, hreturn⟩ := hshown c List.mem_cons_self
      by_cases hend : c = '\x27' ∧ text = []
      · obtain ⟨rfl, rfl⟩ := hend
        exact hone
      by_cases hlast : c = '\x27' ∧ text = ['\x27']
      · obtain ⟨rfl, rfl⟩ := hlast
        exact htwo
      have hrow : c = '\x27' → ∀ later, text ++ '\x27' :: '\x27' :: '\x27' :: rest ≠
          '\x27' :: '\x27' :: later := by
        rintro rfl later heq
        match text with
        | [] => exact hend ⟨rfl, rfl⟩
        | [d] =>
            obtain rfl : d = '\x27' := (List.cons.inj heq).1
            exact hlast ⟨rfl, rfl⟩
        | d :: e :: after =>
            obtain ⟨hd, hrest⟩ := List.cons.inj heq
            obtain ⟨he, -⟩ := List.cons.inj hrest
            exact hrows [] after (by rw [hd, he]; rfl)
      rw [List.cons_append, longLiteralText_shown hc hreturn hrow, hmore]
      rfl

/-! ### The choice of a form -/

theorem le_foldl_max (n : Nat) (ns : List Nat) :
    n ≤ ns.foldl max n ∧ ∀ m ∈ ns, m ≤ ns.foldl max n := by
  induction ns generalizing n with
  | nil => simp
  | cons first ns ih =>
      obtain ⟨hleast, hmost⟩ := ih (max n first)
      rw [List.foldl_cons]
      refine ⟨by omega, fun m hm => ?_⟩
      rcases List.mem_cons.mp hm with rfl | hm
      · omega
      · exact hmost m hm

/-- No row of a character is longer than the longest one. -/
theorem length_le_longestRow (before row after : List Char) (hrow : ∀ d ∈ row, d = c) :
    row.length ≤ longestRow c (before ++ row ++ after) := by
  have hnot : ∀ d ∈ row, (d != c) = false := fun d hd => by simp [hrow d hd]
  obtain ⟨whole, hwhole, hlength⟩ := Text.exists_mem_splitWhere hnot before after
  exact Nat.le_trans hlength ((le_foldl_max 0 _).2 _ (List.mem_map_of_mem hwhole))

theorem not_mem_of_longestRow (h : longestRow c text = 0) : c ∉ text := by
  intro hmem
  obtain ⟨before, after, rfl⟩ := List.append_of_mem hmem
  have hrow := length_le_longestRow (c := c) before [c] after (by simp)
  rw [List.append_assoc, List.singleton_append, h] at hrow
  cases hrow

theorem no_row_of_longestRow (h : longestRow c text ≤ 2) (before after : List Char) :
    text ≠ before ++ c :: c :: c :: after := by
  rintro rfl
  have hrow := length_le_longestRow (c := c) before [c, c, c] after (by simp)
  rw [List.append_assoc] at hrow
  exact absurd (Nat.le_trans hrow h) (Nat.not_succ_le_self 2)

theorem shown_of_not_control (h : isControl c = false) :
    (isShown c = true ∨ c = '\n') ∧ c ≠ '\r' := by
  constructor
  · by_cases hline : c = '\n'
    · exact .inr hline
    · simp only [isControl, isShown, Bool.or_eq_false_iff, Bool.and_eq_false_iff, Bool.or_eq_true,
        Bool.and_eq_true, decide_eq_true_eq, decide_eq_false_iff_not, bne_eq_false_iff_eq,
        beq_eq_false_iff_ne, beq_iff_eq] at h ⊢
      grind
  · rintro rfl
    exact absurd h (by decide)

/-- The line end after opening triple quotes is dropped again, and no other one. -/
theorem dropLineEnd_longStart (hfirst : ∀ tail, more = '\n' :: tail → '\n' ∈ text)
    (hreturn : ∀ tail, more ≠ '\r' :: tail) : dropLineEnd (longStart text ++ more) = more := by
  unfold longStart
  split
  · rfl
  · rename_i hsingle
    have hline : '\n' ∉ text := by simpa using hsingle
    rw [List.nil_append]
    unfold dropLineEnd
    split
    · rename_i tail
      exact absurd (hfirst tail rfl) hline
    · rename_i tail
      exact absurd rfl (hreturn _)
    · rfl

/-- Only a line end is written as one, and a carriage return never stands for itself. -/
theorem escapeLong_head (c : Char) (text : List Char) : ∃ d tail,
    escapeLong 0 (c :: text) = d :: tail ∧ (d = '\n' → c = '\n') ∧ d ≠ '\r' := by
  by_cases hquote : c = '"'
  · subst hquote
    exact ⟨_, _, rfl, by decide, by decide⟩
  rw [escapeLong_cons_ne hquote]
  split
  · rename_i hline
    exact ⟨_, _, rfl, fun _ => hline, by decide⟩
  · rcases escapeChar_cases c with ⟨tail, htail, -⟩ | ⟨hplain, -, -, -, hreturn⟩
    · exact ⟨_, _, by rw [htail]; rfl, fun h => absurd h (by decide), by decide⟩
    · exact ⟨_, _, by rw [hplain]; rfl, id, hreturn⟩

/-- No quote follows the closing ones. -/
def Ends (rest : List Char) : Prop :=
  rest.head? ≠ some '"' ∧ rest.head? ≠ some '\x27'

theorem quotedText?_basic (hrest : Ends rest) (text : List Char) :
    quotedText? ('"' :: text.flatMap escapeChar ++ ['"'] ++ rest) = some (text, rest) := by
  have hbody : ∀ later, text.flatMap escapeChar ++ '"' :: rest ≠ '"' :: '"' :: later := by
    intro later heq
    cases text with
    | nil => exact hrest.1 (by rw [(List.cons.inj heq).2]; rfl)
    | cons c text =>
        obtain ⟨d, tail, hd, hne⟩ := escapeChar_head_ne c
        rw [List.flatMap_cons, hd] at heq
        exact hne (List.cons.inj heq).1
  rw [List.append_assoc, List.singleton_append, List.cons_append, quotedText?]
  · exact basicText_escaped text rest
  · exact hbody

theorem quotedText?_longBasic (hrest : Ends rest) (text : List Char) :
    quotedText? ("\"\"\"".toList ++ longStart text ++ escapeLong 0 text ++ "\"\"\"".toList ++
      rest) = some (text, rest) := by
  have hread := longBasicText_escaped hrest.1 0 text
  generalize hbody : escapeLong 0 text ++ '"' :: '"' :: '"' :: rest = body at hread
  obtain ⟨hline, hreturn⟩ : (∀ tail, body = '\n' :: tail → '\n' ∈ text) ∧
      ∀ tail, body ≠ '\r' :: tail := by
    cases text with
    | nil => simp [← hbody, escapeLong]
    | cons c text =>
        obtain ⟨d, tail, hd, hline, hreturn⟩ := escapeLong_head c text
        rw [hd] at hbody
        exact ⟨fun _ h => hline (List.cons.inj (hbody.trans h)).1 ▸ List.mem_cons_self,
          fun _ h => hreturn (List.cons.inj (hbody.trans h)).1⟩
  have hform : "\"\"\"".toList ++ longStart text ++ escapeLong 0 text ++ "\"\"\"".toList ++ rest =
      '"' :: '"' :: '"' :: (longStart text ++ body) := by
    rw [← hbody]
    simp
  rw [hform, quotedText?, dropLineEnd_longStart hline hreturn, hread]

theorem quotedText?_literal (hrest : Ends rest) (hquote : '\x27' ∉ text)
    (hshown : ∀ c ∈ text, isShown c = true) :
    quotedText? ('\x27' :: text ++ ['\x27'] ++ rest) = some (text, rest) := by
  have hbody : ∀ later, text ++ '\x27' :: rest ≠ '\x27' :: '\x27' :: later := by
    intro later heq
    cases text with
    | nil => exact hrest.2 (by rw [(List.cons.inj heq).2]; rfl)
    | cons c text => exact hquote ((List.cons.inj heq).1 ▸ List.mem_cons_self)
  rw [List.append_assoc, List.singleton_append, List.cons_append, quotedText?]
  · exact literalText_plain hquote hshown
  · exact hbody

theorem quotedText?_longLiteral (hrest : Ends rest)
    (hrows : ∀ before after, text ≠ before ++ '\x27' :: '\x27' :: '\x27' :: after)
    (hshown : ∀ c ∈ text, (isShown c = true ∨ c = '\n') ∧ c ≠ '\r') :
    quotedText? ("\'\'\'".toList ++ longStart text ++ text ++ "\'\'\'".toList ++ rest) =
      some (text, rest) := by
  have hread := longLiteralText_plain hrest.2 hrows hshown
  generalize hbody : text ++ '\x27' :: '\x27' :: '\x27' :: rest = body at hread
  obtain ⟨hline, hreturn⟩ : (∀ tail, body = '\n' :: tail → '\n' ∈ text) ∧
      ∀ tail, body ≠ '\r' :: tail := by
    cases text with
    | nil => simp [← hbody]
    | cons c text =>
        exact ⟨fun _ h => (List.cons.inj (hbody.trans h)).1 ▸ List.mem_cons_self,
          fun _ h => (hshown c List.mem_cons_self).2 (List.cons.inj (hbody.trans h)).1⟩
  have hform : "\'\'\'".toList ++ longStart text ++ text ++ "\'\'\'".toList ++ rest =
      '\x27' :: '\x27' :: '\x27' :: (longStart text ++ body) := by
    rw [← hbody]
    simp
  rw [hform, quotedText?, dropLineEnd_longStart hline hreturn, hread]

/-- What is written for a text is read as this text, and nothing more is read. -/
theorem quotedText?_quote (hrest : Ends rest) (text : List Char) :
    quotedText? (quote text ++ rest) = some (text, rest) := by
  have hplain : text.any isControl = false →
      ∀ c ∈ text, (isShown c = true ∨ c = '\n') ∧ c ≠ '\r' :=
    fun hnone c hc => shown_of_not_control (Bool.eq_false_iff.mpr fun hcontrol =>
      Bool.eq_false_iff.mp hnone (List.any_eq_true.mpr ⟨c, hc, hcontrol⟩))
  have hshown : text.any isControl = false → text.contains '\n' = false →
      ∀ c ∈ text, isShown c = true := by
    intro hnone hline c hc
    refine (hplain hnone c hc).1.resolve_right ?_
    rintro rfl
    simp [hc] at hline
  unfold quote
  simp only
  split
  · exact quotedText?_basic hrest text
  split
  · rename_i hliteral
    simp only [Bool.and_eq_true, Bool.not_eq_true', decide_eq_true_eq] at hliteral
    obtain ⟨⟨hnone, hsingles⟩, hline⟩ := hliteral
    exact quotedText?_literal hrest (not_mem_of_longestRow hsingles) (hshown hnone hline)
  split
  · exact quotedText?_longBasic hrest text
  split
  · rename_i hliteral
    simp only [Bool.and_eq_true, Bool.not_eq_true', decide_eq_true_eq] at hliteral
    exact quotedText?_longLiteral hrest (no_row_of_longestRow hliteral.2) (hplain hliteral.1)
  split
  · exact quotedText?_longBasic hrest text
  · exact quotedText?_basic hrest text

end TickHost.Toml
