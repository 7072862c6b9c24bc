import TickHost.Proofs.Numerals
import TickHost.Proofs.Quotes
import TickHost.Config

/-!
Settings are read from the document that is written for them. Each value is followed by the end of
a line, by a comma or by a bracket, and whichever it is, the reader stops there; so the lines are
read one after the other, and the table that they make has each setting under its name.
-/

namespace TickHost.Toml

open Decimal

variable {text rest key value : List Char} {lines : List Line} {node : Node}

/-! ### Numbers -/

/-- What may follow a value: the end of a line, a comma, or the bracket of an array. -/
def Stops (rest : List Char) : Prop :=
  ∃ c tail, rest = c :: tail ∧ (c = '\n' ∨ c = ',' ∨ c = ']')

theorem Stops.ends (h : Stops rest) : Ends rest := by
  obtain ⟨c, tail, rfl, rfl | rfl | rfl⟩ := h <;> simp [Ends]

theorem expect?_digits {c : Char} (hc : c.isDigit = false) (hall : text.all Char.isDigit = true) :
    expect? c text = none := by
  cases text with
  | nil => rfl
  | cons d text =>
      have hd : d.isDigit = true := List.all_eq_true.mp hall d List.mem_cons_self
      refine if_neg ?_
      rintro rfl
      exact Bool.false_ne_true (hc.symm.trans hd)

/-- Only digits follow the first digits. -/
theorem expect?_fixed (hall : text.all Char.isDigit = true) (width : Nat) {mark : Char}
    (hmark : mark.isDigit = false) :
    ((fixed? width text).bind fun (_, rest) => expect? mark rest) = none := by
  have hdrop : (text.drop width).all Char.isDigit = true :=
    List.all_eq_true.mpr fun c hc => List.all_eq_true.mp hall c (List.mem_of_mem_drop hc)
  unfold fixed?
  simp only
  split
  · exact expect?_digits hmark hdrop
  · rfl

/-- A number is no date and no time of day, since these have other marks after their digits. -/
theorem isMoment_digits (hall : text.all Char.isDigit = true) : isMoment text = false := by
  have hdate : date? text = none := by
    have h := expect?_fixed hall 4 (show '-'.isDigit = false from rfl)
    unfold date?
    cases hfixed : fixed? 4 text with
    | none => rfl
    | some found =>
        rw [hfixed] at h
        simp only [Option.bind_some] at h
        simp [h]
  have htime : time? text = none := by
    have h := expect?_fixed hall 2 (show ':'.isDigit = false from rfl)
    unfold time?
    cases hfixed : fixed? 2 text with
    | none => rfl
    | some found =>
        rw [hfixed] at h
        simp only [Option.bind_some] at h
        simp [h]
  simp [isMoment, hdate, htime]

/-- Digits are all of a number; a zero at their start stands alone. -/
theorem wholeDigits?_toDigits (n : Nat) :
    wholeDigits? (Nat.toDigits 10 n) = some (Nat.toDigits 10 n) := by
  have hall := List.all_eq_true.mp (all_isDigit_toDigits n)
  have hdigits : digits? Char.isDigit (Nat.toDigits 10 n) = some (Nat.toDigits 10 n) := by
    have hone : Text.splitEvery '_' (Nat.toDigits 10 n) = [Nat.toDigits 10 n] :=
      Text.splitWhere_eq_singleton fun c hc => by
        rw [beq_eq_false_iff_ne]
        rintro rfl
        exact absurd (hall _ hc) (by decide)
    simp [digits?, hone, Nat.toDigits_ne_nil]
    exact hall
  unfold wholeDigits?
  split
  · next d rest hzero =>
      rw [hdigits] at hzero
      rcases Nat.eq_zero_or_pos n with rfl | hn
      · cases hzero
      · exact absurd (by rw [Option.some.inj hzero]; rfl) (head?_toDigits (by decide) hn)
  · exact hdigits

theorem integer?_toDigits {n : Nat} (hn : n < Nat.pow 2 63) :
    integer? (Nat.toDigits 10 n) = some (n : Int) := by
  have hall := List.all_eq_true.mp (all_isDigit_toDigits n)
  have hrange : inRange? (n : Int) = some (n : Int) := by
    generalize hlimit : Nat.pow 2 63 = limit at hn
    rw [inRange?, hlimit, if_pos ⟨by omega, by omega⟩]
  have hsign : splitSign (Nat.toDigits 10 n) = (false, Nat.toDigits 10 n) := by
    unfold splitSign
    split
    · next rest h => exact absurd (hall '-' (h ▸ List.mem_cons_self)) (by decide)
    · next rest h => exact absurd (hall '+' (h ▸ List.mem_cons_self)) (by decide)
    · rfl
  unfold integer?
  split
  · next rest h => exact absurd (hall 'x' (h ▸ by simp)) (by decide)
  · next rest h => exact absurd (hall 'o' (h ▸ by simp)) (by decide)
  · next rest h => exact absurd (hall 'b' (h ▸ by simp)) (by decide)
  · refine Option.bind_eq_some_iff.mpr ⟨n, ?_, hrange⟩
    rw [hsign]
    simp [wholeDigits?_toDigits, digitsValue_toDigits]

theorem scalar_toDigits {n : Nat} (hn : n < Nat.pow 2 63) :
    scalar (Nat.toDigits 10 n) = some (.integer n) := by
  have hall := all_isDigit_toDigits n
  have hword : ∀ word : List Char, word.all Char.isDigit = false → Nat.toDigits 10 n ≠ word :=
    fun word hword h => Bool.false_ne_true (hword.symm.trans (h ▸ hall))
  rw [scalar, if_neg (hword _ (by decide)), if_neg (hword _ (by decide)),
    isMoment_digits hall, if_neg Bool.false_ne_true, integer?_toDigits hn]

theorem scalarText_digits (hall : text.all Char.isDigit = true) (hrest : Stops rest) :
    scalarText (text ++ rest) = (text, rest) := by
  have hscalar : ∀ c ∈ text, isScalarChar c = true := fun c hc => by
    have hdigit := List.all_eq_true.mp hall c hc
    simp [isScalarChar, Char.isAlphanum, hdigit]
  obtain ⟨c, tail, rfl, hc⟩ := hrest
  have hstop : isScalarChar c = false := by rcases hc with rfl | rfl | rfl <;> decide
  have hspace : c ≠ ' ' := by rcases hc with rfl | rfl | rfl <;> decide
  unfold scalarText
  rw [List.takeWhile_append_of_pos hscalar, List.dropWhile_append_of_pos hscalar,
    List.takeWhile_cons_of_neg (by simp [hstop]), List.dropWhile_cons_of_neg (by simp [hstop])]
  simp [hspace]

/-! ### Values -/

/-- A text that is read as a value wherever a value may stand, and without blanks before it. -/
structure Stands (value : List Char) (node : Node) : Prop where
  tight : ∀ rest, skipSpace (value ++ rest) = value ++ rest
  reads : ∀ fuel rest, value.length < fuel → Stops rest →
    value? fuel nestingLimit (value ++ rest) = some (node, rest)

/-- A value that neither opens a bracket nor is quoted is read as a scalar. -/
theorem value?_scalar {c : Char} {first : List Char} (hc : c.isDigit = true) (fuel depth : Nat)
    (hread : scalarText (c :: text) = (first, rest)) (hnode : scalar first = some node) :
    value? (fuel + 1) depth (c :: text) = some (node, rest) := by
  have hne : ∀ d : Char, d.isDigit = false → c ≠ d := fun _ hd =>
    Text.ne_of_test hc hd
  have hquoted : quotedText? (c :: text) = none := by
    unfold quotedText?
    split <;> first
      | rfl
      | next h => exact absurd (List.cons.inj h).1 (hne _ (by decide))
  unfold value?
  split
  · next h => exact absurd (List.cons.inj h).1 (hne _ (by decide))
  · next h => exact absurd (List.cons.inj h).1 (hne _ (by decide))
  · simp [hquoted, hread, hnode]

theorem value?_toDigits {n : Nat} (hn : n < Nat.pow 2 63) (fuel depth : Nat) (hrest : Stops rest) :
    value? (fuel + 1) depth (Nat.toDigits 10 n ++ rest) = some (.integer n, rest) := by
  have hall := all_isDigit_toDigits n
  have hread := scalarText_digits hall hrest
  have hscalar := scalar_toDigits hn
  obtain ⟨c, digits, hdigits⟩ := List.exists_cons_of_ne_nil (Nat.toDigits_ne_nil (n := n) (b := 10))
  rw [hdigits] at hall hread hscalar ⊢
  exact value?_scalar (List.all_eq_true.mp hall c List.mem_cons_self) fuel depth hread hscalar

theorem quote_head (text : List Char) :
    ∃ c tail, quote text = c :: tail ∧ (c = '"' ∨ c = '\x27') := by
  have hends : Ends [] := ⟨by simp, by simp⟩
  have hread := quotedText?_quote hends text
  rw [List.append_nil] at hread
  unfold quotedText? at hread
  split at hread
  · next h => exact ⟨_, _, h, .inl rfl⟩
  · next h => exact ⟨_, _, h, .inl rfl⟩
  · next h => exact ⟨_, _, h, .inr rfl⟩
  · next h => exact ⟨_, _, h, .inr rfl⟩
  · cases hread

theorem value?_quote (fuel depth : Nat) (hrest : Ends rest) (text : List Char) :
    value? (fuel + 1) depth (quote text ++ rest) = some (.text (String.ofList text), rest) := by
  have hread := quotedText?_quote hrest text
  obtain ⟨c, tail, hquote, hc⟩ := quote_head text
  rw [hquote, List.cons_append] at hread ⊢
  unfold value?
  split
  · next h => rcases hc with rfl | rfl <;> exact absurd (List.cons.inj h).1 (by decide)
  · next h => rcases hc with rfl | rfl <;> exact absurd (List.cons.inj h).1 (by decide)
  · simp [hread]

/-! ### Lists -/

theorem skipFiller_quote (text rest : List Char) :
    skipFiller false (quote text ++ rest) = quote text ++ rest := by
  obtain ⟨c, tail, hquote, rfl | rfl⟩ := quote_head text <;> simp [hquote, skipFiller, isSpace]

/-- The lines of a list of texts. -/
def rows (texts : List (List Char)) : List Char :=
  texts.flatMap fun text => "    ".toList ++ quote text ++ ",\n".toList

theorem items?_rows (depth : Nat) (texts : List (List Char)) (rest : List Char) {fuel : Nat}
    (hfuel : (rows texts).length < fuel) :
    items? fuel depth ('\n' :: (rows texts ++ ']' :: rest)) =
      some (texts.map fun text => .text (String.ofList text), rest) := by
  induction texts generalizing fuel with
  | nil =>
      obtain ⟨fuel, rfl⟩ := Nat.exists_eq_add_of_lt hfuel
      simp [items?, rows, skipFiller, isSpace]
  | cons text texts ih =>
      have hsplit : rows (text :: texts) =
          "    ".toList ++ quote text ++ ",\n".toList ++ rows texts := List.flatMap_cons
      obtain ⟨c, tail, hquote, hc⟩ := quote_head text
      have hlength : (rows (text :: texts)).length = tail.length + 7 + (rows texts).length := by
        rw [hsplit, hquote]
        simp
        omega
      obtain ⟨fuel, rfl⟩ : ∃ rest, fuel = rest + 2 := ⟨fuel - 2, by omega⟩
      have hskip : skipFiller false ('\n' :: (rows (text :: texts) ++ ']' :: rest)) =
          quote text ++ ',' :: '\n' :: (rows texts ++ ']' :: rest) := by
        rw [← skipFiller_quote, hsplit]
        simp [skipFiller, isSpace]
      have hends : Ends (',' :: '\n' :: (rows texts ++ ']' :: rest)) := ⟨by simp, by simp⟩
      have hitem := value?_quote fuel depth hends text
      have hmore := ih (show (rows texts).length < fuel + 1 by omega)
      rw [items?, hskip]
      split
      · next h =>
          rw [hquote] at h
          rcases hc with rfl | rfl <;> exact absurd (List.cons.inj h).1 (by decide)
      · simp [hitem, skipFiller, isSpace, hmore]

theorem stands_toDigits {n : Nat} (hn : n < Nat.pow 2 63) :
    Stands (Nat.toDigits 10 n) (.integer n) where
  tight rest := by
    obtain ⟨c, digits, hdigits⟩ :=
      List.exists_cons_of_ne_nil (Nat.toDigits_ne_nil (n := n) (b := 10))
    have hc := List.all_eq_true.mp (all_isDigit_toDigits n) c (hdigits ▸ List.mem_cons_self)
    rw [hdigits, List.cons_append, skipSpace, List.dropWhile_cons_of_neg]
    intro hspace
    simp only [isSpace, Bool.or_eq_true, beq_iff_eq] at hspace
    rcases hspace with rfl | rfl <;> exact absurd hc (by decide)
  reads fuel rest hfuel hrest := by
    obtain ⟨fuel, rfl⟩ := Nat.exists_eq_add_of_lt hfuel
    exact value?_toDigits hn _ _ hrest

theorem stands_quote (text : List Char) : Stands (quote text) (.text (String.ofList text)) where
  tight rest := by
    obtain ⟨c, tail, hquote, rfl | rfl⟩ := quote_head text <;> simp [hquote, skipSpace, isSpace]
  reads fuel rest hfuel hrest := by
    obtain ⟨fuel, rfl⟩ := Nat.exists_eq_add_of_lt hfuel
    exact value?_quote _ _ hrest.ends text

theorem items?_single (fuel depth : Nat) (text rest : List Char) :
    items? (fuel + 2) depth (quote text ++ ']' :: rest) =
      some ([.text (String.ofList text)], rest) := by
  have hends : Ends (']' :: rest) := ⟨by simp, by simp⟩
  have hitem := value?_quote fuel depth hends text
  obtain ⟨c, tail, hquote, hc⟩ := quote_head text
  rw [items?, skipFiller_quote]
  split
  · next h =>
      rw [hquote] at h
      rcases hc with rfl | rfl <;> exact absurd (List.cons.inj h).1 (by decide)
  · simp [hitem, skipFiller, isSpace]

theorem toList_renderList (texts : List String) : (Config.renderList texts).toList =
    match texts with
    | [] => ['[', ']']
    | [text] => '[' :: (quote text.toList ++ [']'])
    | texts => '[' :: '\n' :: (rows (texts.map String.toList) ++ [']']) := by
  match texts with
  | [] => rfl
  | [text] => simp [Config.renderList, Config.quoted]
  | first :: second :: texts =>
      simp [Config.renderList, Config.quoted, rows, String.toList_join, List.flatMap_map]

theorem value?_array {items : List Node} {fuel depth : Nat}
    (h : items? fuel depth text = some (items, rest)) :
    value? (fuel + 1) (depth + 1) ('[' :: text) = some (.array items, rest) := by
  simp [value?, h]

theorem stands_renderList (texts : List String) :
    Stands (Config.renderList texts).toList (.array (texts.map .text)) where
  tight rest := by
    rw [toList_renderList]
    split <;> simp [skipSpace, isSpace]
  reads fuel rest hfuel _ := by
    rw [toList_renderList] at hfuel ⊢
    have hlimit : nestingLimit = 78 + 1 := rfl
    rw [hlimit]
    split at hfuel <;> simp only [List.length_cons, List.length_append, List.length_nil] at hfuel
    · obtain ⟨fuel, rfl⟩ : ∃ more, fuel = more + 2 := ⟨fuel - 2, by omega⟩
      exact value?_array (by simp [items?, skipFiller, isSpace])
    · next text =>
        obtain ⟨c, tail, hquote, -⟩ := quote_head text.toList
        rw [hquote, List.length_cons] at hfuel
        obtain ⟨fuel, rfl⟩ : ∃ more, fuel = more + 3 := ⟨fuel - 3, by omega⟩
        have hitems := items?_single fuel 78 text.toList rest
        rw [String.ofList_toList] at hitems
        simpa using value?_array hitems
    · obtain ⟨fuel, rfl⟩ : ∃ more, fuel = more + 1 := ⟨fuel - 1, by omega⟩
      have hlength : (rows (texts.map String.toList)).length < fuel := by omega
      have hitems := items?_rows 78 (texts.map String.toList) rest hlength
      simpa [Function.comp_def] using value?_array hitems

/-! ### Lines -/

/-- A key that needs no quotes. -/
def isBare (key : List Char) : Bool :=
  !key.isEmpty && key.all isBareKeyChar

/-- What the lines of a text say, as long as there is fuel. -/
def Says (text : List Char) (lines : List Line) : Prop :=
  ∀ fuel, text.length < fuel → lines? fuel text = some lines

theorem bare_head {c : Char} (hc : isBareKeyChar c = true) :
    c ≠ '"' ∧ c ≠ '\x27' ∧ c ≠ '[' ∧ c ≠ '#' ∧ c ≠ '\n' ∧ c ≠ '\r' ∧ isSpace c = false := by
  have hne : ∀ d, isBareKeyChar d = false → c ≠ d := fun _ hd =>
    Text.ne_of_test hc hd
  refine ⟨hne _ rfl, hne _ rfl, hne _ rfl, hne _ rfl, hne _ rfl, hne _ rfl, ?_⟩
  simp [isSpace, hne ' ' rfl, hne '\t' rfl]

theorem exists_bare (hkey : isBare key = true) : ∃ first more, key = first :: more ∧
    isBareKeyChar first = true ∧ ∀ d ∈ key, isBareKeyChar d = true := by
  obtain ⟨hsome, hall⟩ : key ≠ [] ∧ ∀ d ∈ key, isBareKeyChar d = true := by
    simpa [isBare] using hkey
  obtain ⟨first, more, rfl⟩ := List.exists_cons_of_ne_nil hsome
  exact ⟨first, more, rfl, hall first List.mem_cons_self, hall⟩

/-- A bare key is read up to the character that ends it. -/
theorem key?_bare {c : Char} (hkey : isBare key = true) (hc : isBareKeyChar c = false)
    (hafter : ∀ after, skipSpace (c :: rest) ≠ '.' :: after) :
    key? nestingLimit (key ++ c :: rest) = some ([String.ofList key], skipSpace (c :: rest)) := by
  obtain ⟨first, key, rfl, hfirst, hall⟩ := exists_bare hkey
  obtain ⟨hbasic, hliteral, -, -, -, -, hspace⟩ := bare_head hfirst
  have hpart : keyPart? (first :: key ++ c :: rest) =
      some (String.ofList (first :: key), c :: rest) := by
    unfold keyPart?
    split
    · next h => exact absurd (List.cons.inj h).1 hbasic
    · next h => exact absurd (List.cons.inj h).1 hliteral
    · rw [List.takeWhile_append_of_pos hall, List.dropWhile_append_of_pos hall]
      simp [hc]
  have hskip : skipSpace (first :: key ++ c :: rest) = first :: key ++ c :: rest := by
    rw [skipSpace, List.cons_append, List.dropWhile_cons_of_neg (by simp [hspace])]
  have hlimit : nestingLimit = 78 + 1 := rfl
  rw [hlimit, key?, hskip, hpart]
  simp only [Option.bind_eq_bind, Option.bind_some]

theorem lineEnd?_newline (rest : List Char) : lineEnd? ('\n' :: rest) = some rest := by
  simp [lineEnd?, skipSpace, isSpace, skipComment]

theorem says_nil : Says [] [] := by
  intro fuel hfuel
  obtain ⟨fuel, rfl⟩ := Nat.exists_eq_add_of_lt hfuel
  simp [lines?, skipSpace]

theorem Says.blank (h : Says rest lines) : Says ('\n' :: rest) lines := by
  intro fuel hfuel
  obtain ⟨fuel, rfl⟩ : ∃ more, fuel = more + 1 := ⟨fuel - 1, by omega⟩
  have hrest := h fuel (by simpa using hfuel)
  simp [lines?, skipSpace, isSpace, lineEnd?_newline, hrest]

theorem Says.header (h : Says rest lines) (key : List Char) (hkey : isBare key = true) :
    Says ('[' :: (key ++ ']' :: '\n' :: rest)) (.header [String.ofList key] false :: lines) := by
  intro fuel hfuel
  obtain ⟨fuel, rfl⟩ : ∃ more, fuel = more + 1 := ⟨fuel - 1, by omega⟩
  have hrest := h fuel (by simp at hfuel; omega)
  have hafter : ∀ after, skipSpace (']' :: '\n' :: rest) ≠ '.' :: after := by
    simp [skipSpace, isSpace]
  have hread := key?_bare hkey (by decide) hafter
  have hplain : ∀ after, key ++ ']' :: '\n' :: rest ≠ '[' :: after := by
    obtain ⟨first, more, rfl, hfirst, -⟩ := exists_bare hkey
    exact fun after heq => (bare_head hfirst).2.2.1 (List.cons.inj heq).1
  have hspace : skipSpace ('[' :: (key ++ ']' :: '\n' :: rest)) =
      '[' :: (key ++ ']' :: '\n' :: rest) := rfl
  rw [lines?, hspace]
  split
  · next h => cases h
  · next h => exact absurd (List.cons.inj h).2 (hplain _)
  · next tail _ h =>
      obtain rfl := (List.cons.inj h).2
      have hskip : skipSpace (']' :: '\n' :: rest) = ']' :: '\n' :: rest := rfl
      rw [hskip] at hread
      simp [header?, hread, headerEnd?, lineEnd?_newline, hrest]
  · next h => exact absurd rfl (h _)

/-- A key is followed by its value. -/
theorem pair?_stands {fuel : Nat} (hkey : isBare key = true) (hvalue : Stands value node)
    (hfuel : value.length < fuel) (rest : List Char) :
    pair? fuel (key ++ ' ' :: '=' :: ' ' :: (value ++ '\n' :: rest)) =
      some (.pair [String.ofList key] node, rest) := by
  have hafter : ∀ after, skipSpace (' ' :: '=' :: ' ' :: (value ++ '\n' :: rest)) ≠
      '.' :: after := by
    simp [skipSpace, isSpace]
  have hread := key?_bare hkey (by decide) hafter
  have hreads := hvalue.reads fuel ('\n' :: rest) hfuel ⟨'\n', rest, rfl, .inl rfl⟩
  have htight := hvalue.tight ('\n' :: rest)
  have hskip : skipSpace (' ' :: '=' :: ' ' :: (value ++ '\n' :: rest)) =
      '=' :: ' ' :: (value ++ '\n' :: rest) := rfl
  have hstart : skipSpace (' ' :: (value ++ '\n' :: rest)) = value ++ '\n' :: rest := by
    rw [skipSpace, List.dropWhile_cons_of_pos (by decide)]
    exact htight
  rw [hskip] at hread
  simp [pair?, hread, hstart, hreads, lineEnd?_newline]

/-- A line that starts with a key is no blank line. -/
theorem lineEnd?_bare (hkey : isBare key = true) (rest : List Char) :
    skipSpace (key ++ rest) = key ++ rest ∧ lineEnd? (key ++ rest) = none := by
  obtain ⟨first, key, rfl, hfirst, -⟩ := exists_bare hkey
  obtain ⟨-, -, -, hhash, hline, hreturn, hspace⟩ := bare_head hfirst
  generalize hall : first :: key ++ rest = all
  rw [List.cons_append] at hall
  have hskip : skipSpace all = all := by simp [← hall, skipSpace, hspace]
  have hcomment : skipComment all = all := by
    rw [← hall]
    unfold skipComment
    split
    · next h => exact absurd (List.cons.inj h).1 hhash
    · rfl
  refine ⟨hskip, ?_⟩
  unfold lineEnd?
  rw [hskip, hcomment]
  split
  · cases hall
  · exact absurd (List.cons.inj hall).1 hline
  · exact absurd (List.cons.inj hall).1 hreturn
  · rfl

theorem Says.pair (h : Says rest lines) (key : List Char) (hkey : isBare key = true)
    (hvalue : Stands value node) :
    Says (key ++ ' ' :: '=' :: ' ' :: (value ++ '\n' :: rest))
      (.pair [String.ofList key] node :: lines) := by
  intro fuel hfuel
  obtain ⟨fuel, rfl⟩ : ∃ more, fuel = more + 1 := ⟨fuel - 1, by omega⟩
  simp only [List.length_append, List.length_cons] at hfuel
  have hrest := h fuel (by omega)
  have hpair := pair?_stands hkey hvalue (show value.length < fuel by omega) rest
  obtain ⟨hskip, hnoend⟩ := lineEnd?_bare hkey (' ' :: '=' :: ' ' :: (value ++ '\n' :: rest))
  obtain ⟨first, key, rfl, hfirst, -⟩ := exists_bare hkey
  obtain ⟨-, -, hbracket, -⟩ := bare_head hfirst
  rw [lines?, hskip]
  split
  · next heq => cases heq
  · next heq => exact absurd (List.cons.inj heq).1 hbracket
  · next heq => exact absurd (List.cons.inj heq).1 hbracket
  · simp only [hnoend, hpair, Option.bind_eq_bind, Option.bind_some, hrest, Option.map_some]

end TickHost.Toml

namespace TickHost.Config

open Toml Decimal

variable {c : Config}

/-- The numbers that can be written. -/
def Writable (c : Config) : Prop :=
  ∀ entry ∈ numbers c.host, entry.2 ≤ numberLimit

/-- What the lines about the host say. -/
def hostLines (s : HostSettings) : List Line :=
  (numbers s).map fun (name, n) => .pair [name] (.integer n)

/-- What the lines about the scripts say. -/
def scriptLines (s : ScriptSettings) : List Line :=
  (s.directory.toList.map fun path => .pair ["script_dir"] (.text path)) ++
    [.pair ["autoload"] (.array (s.autoload.map .text))]

/-- What the lines of the document say. -/
def said (c : Config) : List Line :=
  .header ["host"] false :: hostLines c.host ++ .header ["scripts"] false :: scriptLines c.scripts

theorem lt_of_limit {n : Nat} (hn : n ≤ numberLimit) : n < Nat.pow 2 63 :=
  Nat.lt_of_le_of_lt hn (by decide)

theorem says_numbers {entries : List (String × Nat)} {rest : List Char} {lines : List Line}
    (hentries : ∀ entry ∈ entries, isBare entry.1.toList = true ∧ entry.2 ≤ numberLimit)
    (h : Says rest lines) :
    Says ((String.join (entries.map fun (name, n) => name ++ " = " ++ toString n ++ "\n")).toList ++
      rest) (entries.map (fun (name, n) => .pair [name] (.integer n)) ++ lines) := by
  induction entries with
  | nil => simpa using h
  | cons entry entries ih =>
      obtain ⟨name, n⟩ := entry
      obtain ⟨hbare, hsmall⟩ := hentries _ List.mem_cons_self
      have hrest := ih fun entry hentry => hentries entry (List.mem_cons_of_mem _ hentry)
      have hpair := hrest.pair name.toList hbare (stands_toDigits (lt_of_limit hsmall))
      simpa [String.toList_join, toList_toString] using hpair

theorem isBare_numbers {s : HostSettings} {entry : String × Nat} (hentry : entry ∈ numbers s) :
    isBare entry.1.toList = true := by
  have hall : ∀ name ∈ (numbers s).map Prod.fst, isBare name.toList = true := by
    simp only [numbers, List.map_cons, List.map_nil, List.forall_mem_cons]
    decide
  exact hall _ (List.mem_map_of_mem hentry)

/-- The lines about the scripts, under their header. -/
theorem says_scripts (s : ScriptSettings) :
    Says (("[scripts]\n" ++ (s.directory.elim "" fun path =>
        "script_dir = " ++ quoted path ++ "\n") ++ "autoload = ").toList ++
          (renderList s.autoload).toList ++ ['\n'])
      (.header ["scripts"] false :: scriptLines s) := by
  have hautoload : Says ("autoload = ".toList ++ (renderList s.autoload).toList ++ ['\n'])
      [.pair ["autoload"] (.array (s.autoload.map .text))] := by
    have hpair := says_nil.pair "autoload".toList (by decide) (stands_renderList s.autoload)
    simpa using hpair
  obtain ⟨directory, autoload⟩ := s
  cases directory with
  | none =>
      have hheader := hautoload.header "scripts".toList (by decide)
      simpa [scriptLines] using hheader
  | some path =>
      have hpair := hautoload.pair "script_dir".toList (by decide) (stands_quote path.toList)
      have hheader := hpair.header "scripts".toList (by decide)
      simpa [scriptLines, quoted] using hheader

theorem says_renderText (h : c.Writable) : Says c.renderText.toList c.said := by
  have hhost := (says_numbers (fun entry hentry => ⟨isBare_numbers hentry, h entry hentry⟩)
    (says_scripts c.scripts).blank).header "host".toList (by decide)
  cases hdirectory : c.scripts.directory <;>
    simpa [renderText, said, hostLines, hdirectory] using hhost

/-- The table that the lines of the document make. -/
def table (c : Config) : Table Node :=
  [("host", .table .headed ((numbers c.host).map fun (name, n) => (name, .integer n))),
    ("scripts", .table .headed
      ((c.scripts.directory.toList.map fun path => ("script_dir", .text path)) ++
        [("autoload", .array (c.scripts.autoload.map .text))]))]

theorem assemble?_said : assemble? (sections c.said).1 (sections c.said).2 = some c.table := by
  cases hdirectory : c.scripts.directory <;>
    simp [said, hostLines, scriptLines, table, hdirectory, numbers, sections, assemble?, addPairs,
      addPair, addSection, alter, Table.get?, Table.has, Table.put]

theorem parse?_renderText (h : c.Writable) : parse? c.renderText = some c.table := by
  have hread := says_renderText h (c.renderText.toList.length + 2) (by omega)
  obtain ⟨tail, htail⟩ : ∃ tail, c.renderText.toList = '[' :: tail := by
    simp [renderText]
  have hparse : parse? c.renderText = (lines? (('[' :: tail).length + 2) ('[' :: tail)).bind
      fun lines => assemble? (sections lines).1 (sections lines).2 := by
    unfold parse?
    rw [htail]
    rfl
  rw [hparse, ← htail, hread]
  exact assemble?_said

theorem number?_integer {limit n : Nat} (hn : n < limit) (usual : Nat) :
    number? limit usual (some (.integer (n : Int))) = some n := by
  simp [number?, hn]

theorem host?_numbers {s : HostSettings} (hfits : s.Fits) :
    host? (some (.table .headed ((numbers s).map fun (name, n) => (name, .integer n)))) =
      some s := by
  obtain ⟨htick, hrate, hidentity, hbillboard, hcapacity⟩ := hfits
  -- The limits are made opaque, so that no step computes with them.
  obtain ⟨wide, hwide⟩ : ∃ wide, Nat.pow 2 64 = wide := ⟨_, rfl⟩
  obtain ⟨narrow, hnarrow⟩ : ∃ narrow, Nat.pow 2 32 = narrow := ⟨_, rfl⟩
  rw [hwide] at htick hidentity hbillboard hcapacity
  rw [hnarrow] at hrate
  unfold host?
  rw [hwide, hnarrow]
  simp [numbers, setting?, List.lookup_cons, number?_integer, htick, hrate, hidentity, hbillboard,
    hcapacity]

theorem autoload?_texts (texts : List String) :
    autoload? (some (.array (texts.map .text))) = some texts := by
  rw [autoload?]
  induction texts with
  | nil => rfl
  | cons first texts ih => simp [List.mapM_cons, text?, ih]

/-- The settings are read from the table of their document. -/
theorem ofTable?_table (hfits : c.host.Fits) : ofTable? c.table = some c := by
  obtain ⟨host, ⟨directory, autoload⟩⟩ := c
  have hhost := host?_numbers hfits
  cases directory <;>
    simp [ofTable?, table, Table.get?, hhost, scripts?, setting?, List.lookup_cons, directory?,
      text?, autoload?_texts]

/-- Settings whose numbers can be written are read as they were. -/
theorem read_renderText (hfits : c.host.Fits) (h : c.Writable) : read c.renderText = .ok c := by
  rw [read, parse?_renderText h, Option.bind_some, ofTable?_table hfits]

end TickHost.Config
