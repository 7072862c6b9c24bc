import TickHost.Proofs.Numerals
import TickHost.Proofs.Splits
import TickHost.Proofs.Utf8
import TickHost.Url.Host

/-!
Addresses come back from their texts. An address of sixteen bytes is written with a gap in place
of its first longest run of zeros, and the reader fills the gap to eight pieces again; an address
of four bytes is written in four numbers, whichever way it was given.
-/

namespace TickHost.Url

open Utf8 Text Decimal

/-! ### Pieces -/

theorem hexDigit?_digitChar {d : Nat} (hd : d < 16) : (Nat.digitChar d).toNat < 128 ∧
    hexDigit? (UInt8.ofNat (Nat.digitChar d).toNat) = some d := by
  have hall : ∀ d < 16, (Nat.digitChar d).toNat < 128 ∧
      hexDigit? (UInt8.ofNat (Nat.digitChar d).toNat) = some d := by decide
  exact hall d hd

theorem hexDigit?_lt {b : UInt8} {d : Nat} (h : hexDigit? b = some d) : d < 16 := by
  unfold hexDigit? at h
  simp only at h
  split at h
  · cases h
    omega
  split at h
  · cases h
    omega
  split at h
  · cases h
    omega
  · cases h

theorem addressPiece?_toDigits {n : Nat} (hn : n < 65536) :
    addressPiece? (Nat.toDigits 16 n) = some n := by
  have hlength : (Nat.toDigits 16 n).length ≤ 4 :=
    (Nat.length_toDigits_le_iff (by decide) (by decide)).mpr (by omega)
  have hread := foldlM_toDigits (show 1 < 16 by decide) (fun n c =>
    if c.toNat < 128 then (hexDigit? (UInt8.ofNat c.toNat)).map (16 * n + ·) else none)
    (fun n d hd => by simp [hexDigit?_digitChar hd]) n
  rw [addressPiece?, if_neg (by simp [Nat.toDigits_ne_nil]; omega), hread]

theorem addressPiece?_lt {text : List Char} {n : Nat} (h : addressPiece? text = some n) :
    n < 65536 := by
  have hbound : ∀ (text : List Char) (start n : Nat), text.foldlM (fun n c =>
      if c.toNat < 128 then (hexDigit? (UInt8.ofNat c.toNat)).map (16 * n + ·) else none) start =
        some n → n < (start + 1) * 16 ^ text.length := by
    intro text
    induction text with
    | nil =>
        intro start n h
        cases h
        simp
    | cons c text ih =>
        intro start n h
        rw [List.foldlM_cons] at h
        obtain ⟨next, hnext, hrest⟩ := Option.bind_eq_some_iff.mp h
        split at hnext
        · obtain ⟨d, hd, rfl⟩ := Option.map_eq_some_iff.mp hnext
          have hdigit := hexDigit?_lt hd
          have hless := ih _ _ hrest
          calc n < (16 * start + d + 1) * 16 ^ text.length := hless
            _ ≤ ((start + 1) * 16) * 16 ^ text.length :=
              Nat.mul_le_mul_right _ (by omega)
            _ = (start + 1) * 16 ^ (text.length + 1) := by
              rw [Nat.pow_succ, Nat.mul_assoc, Nat.mul_comm 16]
        · cases hnext
  unfold addressPiece? at h
  split at h
  · cases h
  · next hshort =>
      have hlength : text.length ≤ 4 := by
        simp only [Bool.or_eq_true, decide_eq_true_eq, not_or] at hshort
        omega
      have hless := hbound text 0 n h
      have hpow : 16 ^ text.length ≤ 16 ^ 4 := Nat.pow_le_pow_right (by decide) hlength
      omega

theorem mem_toDigits_hex {n : Nat} {c : Char} (hc : c ∈ Nat.toDigits 16 n) :
    ∃ d < 16, c = Nat.digitChar d := by
  induction n using Nat.strongRecOn with
  | ind n ih =>
      rw [Nat.toDigits_eq_if (by decide)] at hc
      split at hc
      · next hsmall => exact ⟨n, hsmall, List.mem_singleton.mp hc⟩
      · next hlarge =>
          rcases List.mem_append.mp hc with hc | hc
          · exact ih _ (Nat.div_lt_self (by omega) (by decide)) hc
          · exact ⟨n % 16, Nat.mod_lt n (by decide), List.mem_singleton.mp hc⟩

/-- Digits are no marks. -/
theorem digit_of_mem_toDigits {n : Nat} {c : Char} (hc : c ∈ Nat.toDigits 16 n) :
    c ≠ ':' ∧ c ≠ '.' ∧ c ≠ '[' ∧ c ≠ ']' := by
  have hall : ∀ d < 16, Nat.digitChar d ≠ ':' ∧ Nat.digitChar d ≠ '.' ∧ Nat.digitChar d ≠ '[' ∧
      Nat.digitChar d ≠ ']' := by decide
  obtain ⟨d, hd, rfl⟩ := mem_toDigits_hex hc
  exact hall d hd

/-! ### Sixteen bytes -/

/-- A run of pieces as it is written. -/
def showPieces (pieces : List Nat) : List Char :=
  [':'].intercalate (pieces.map (Nat.toDigits 16))

theorem showPieces_cons (p : Nat) (pieces : List Nat) : showPieces (p :: pieces) =
    Nat.toDigits 16 p ++ (pieces.map (Nat.toDigits 16)).flatMap (':' :: ·) :=
  intercalate_cons ':' _ _

theorem addressPieces?_show {pieces : List Nat} (hsmall : ∀ p ∈ pieces, p < 65536)
    (allowEmbedded : Bool) : addressPieces? allowEmbedded (showPieces pieces) = some pieces := by
  cases pieces with
  | nil => rfl
  | cons p pieces =>
      have hgroups : splitEvery ':' (showPieces (p :: pieces)) =
          (p :: pieces).map (Nat.toDigits 16) := by
        refine splitEvery_intercalate (List.cons_ne_nil _ _) fun part hpart hcolon => ?_
        obtain ⟨n, -, rfl⟩ := List.mem_map.mp hpart
        exact (digit_of_mem_toDigits hcolon).1 rfl
      have hsome : (showPieces (p :: pieces)).isEmpty = false := by
        simp [showPieces_cons, Nat.toDigits_ne_nil]
      have hlast : ((((p :: pieces).map (Nat.toDigits 16)).getLast?).getD []).contains '.' =
          false := by
        cases hlast : ((p :: pieces).map (Nat.toDigits 16)).getLast? with
        | none => rfl
        | some last =>
            obtain ⟨n, -, rfl⟩ := List.mem_map.mp (List.mem_of_getLast? hlast)
            rw [Option.getD_some, Bool.eq_false_iff]
            intro hdot
            exact (digit_of_mem_toDigits (List.contains_iff_mem.mp hdot)).2.1 rfl
      rw [addressPieces?, hsome, if_neg Bool.false_ne_true]
      simp only [hgroups, hlast, Bool.false_eq_true, and_false, if_false]
      exact mapM_map fun n hn => addressPiece?_toDigits (hsmall n hn)

theorem splitGap?_prefix {part : List Char} (hpart : ∀ c ∈ part, c ≠ ':') (rest : List Char) :
    splitGap? (part ++ rest) =
      (splitGap? rest).map fun (before, after) => (part ++ before, after) := by
  induction part with
  | nil => simp
  | cons c part ih =>
      have hc : c ≠ ':' := hpart c List.mem_cons_self
      rw [List.cons_append, splitGap?, ih fun c hc => hpart c (List.mem_cons_of_mem _ hc),
        Option.map_map]
      · rfl
      · exact fun _ h => absurd h hc

/-- Single colons with whole parts after them are no gap. -/
theorem splitGap?_parts {parts : List (List Char)}
    (hparts : ∀ part ∈ parts, part ≠ [] ∧ ∀ c ∈ part, c ≠ ':') (rest : List Char) :
    splitGap? (parts.flatMap (':' :: ·) ++ rest) =
      (splitGap? rest).map fun (before, after) => (parts.flatMap (':' :: ·) ++ before, after) := by
  induction parts with
  | nil => simp
  | cons part parts ih =>
      obtain ⟨hsome, hcolon⟩ := hparts part List.mem_cons_self
      obtain ⟨d, tail, rfl⟩ := List.exists_cons_of_ne_nil hsome
      have hrest := splitGap?_prefix hcolon (parts.flatMap (':' :: ·) ++ rest)
      rw [ih fun part hpart => hparts part (List.mem_cons_of_mem _ hpart), Option.map_map] at hrest
      rw [List.flatMap_cons, List.append_assoc, List.cons_append, splitGap?, hrest, Option.map_map]
      · simp [Function.comp_def]
      · intro tail' _ h
        exact hcolon d List.mem_cons_self (List.cons.inj h).1

theorem splitGap?_show (pieces : List Nat) (rest : List Char) :
    splitGap? (showPieces pieces ++ rest) =
      (splitGap? rest).map fun (before, after) => (showPieces pieces ++ before, after) := by
  cases pieces with
  | nil => simp [showPieces]
  | cons p pieces =>
      have hfirst : ∀ c ∈ Nat.toDigits 16 p, c ≠ ':' := fun c hc => (digit_of_mem_toDigits hc).1
      have hparts : ∀ part ∈ pieces.map (Nat.toDigits 16), part ≠ [] ∧ ∀ c ∈ part, c ≠ ':' := by
        intro part hpart
        obtain ⟨n, -, rfl⟩ := List.mem_map.mp hpart
        exact ⟨Nat.toDigits_ne_nil, fun c hc => (digit_of_mem_toDigits hc).1⟩
      rw [showPieces_cons, List.append_assoc, splitGap?_prefix hfirst, splitGap?_parts hparts,
        Option.map_map]
      simp [Function.comp_def]

/-- Whichever run is the best so far, it is one of the runs and has two zeros. -/
theorem foldl_longest {runs : List (Nat × Nat)} {best : Option (Nat × Nat)} {run : Nat × Nat}
    (h : runs.foldl (fun best (start, size) =>
      if size < 2 then best
      else match best with
        | some (_, longest) => if longest < size then some (start, size) else best
        | none => some (start, size)) best = some run) :
    best = some run ∨ run ∈ runs ∧ 2 ≤ run.2 := by
  induction runs generalizing best with
  | nil => exact .inl h
  | cons first runs ih =>
      obtain ⟨i, n⟩ := first
      simp only [List.foldl_cons] at h
      rcases ih h with hbest | ⟨hmem, hsize⟩
      · by_cases htwo : n < 2
        · rw [if_pos htwo] at hbest
          exact .inl hbest
        rw [if_neg htwo] at hbest
        have htaken : some (i, n) = some run → (run ∈ (i, n) :: runs ∧ 2 ≤ run.2) := by
          rintro ⟨rfl⟩
          exact ⟨List.mem_cons_self, Nat.not_lt.mp htwo⟩
        split at hbest
        · split at hbest
          · exact .inr (htaken hbest)
          · exact .inl hbest
        · exact .inr (htaken hbest)
      · exact .inr ⟨List.mem_cons_of_mem _ hmem, hsize⟩

/-- The gap is a run of zeros. -/
theorem longestGap_spec {pieces : List Nat} {start size : Nat}
    (h : longestGap pieces = some (start, size)) : 2 ≤ size ∧
      pieces = pieces.take start ++ List.replicate size 0 ++ pieces.drop (start + size) := by
  rcases foldl_longest h with hnone | ⟨hmem, hsize⟩
  · cases hnone
  obtain ⟨i, -, hrun⟩ := List.mem_map.mp hmem
  obtain ⟨rfl, hlength⟩ := Prod.mk.inj hrun
  have hzeros : (pieces.drop i).takeWhile (· == 0) = List.replicate size 0 := by
    rw [← hlength]
    exact List.eq_replicate_of_mem fun p hp =>
      beq_iff_eq.mp (List.all_eq_true.mp List.all_takeWhile p hp)
  refine ⟨hsize, ?_⟩
  have hrest : (pieces.drop i).dropWhile (· == 0) = pieces.drop (i + size) := by
    have hleft := @List.drop_left Nat ((pieces.drop i).takeWhile (· == 0))
      ((pieces.drop i).dropWhile (· == 0))
    rw [List.takeWhile_append_dropWhile, hlength, List.drop_drop] at hleft
    exact hleft.symm
  calc pieces = pieces.take i ++ pieces.drop i := (List.take_append_drop i pieces).symm
    _ = pieces.take i ++ (List.replicate size 0 ++ pieces.drop (i + size)) := by
      rw [← hzeros, ← hrest, List.takeWhile_append_dropWhile]
    _ = pieces.take i ++ List.replicate size 0 ++ pieces.drop (i + size) :=
      (List.append_assoc _ _ _).symm

/-- An address between its brackets. -/
def showAddress6 (pieces : List Nat) : List Char :=
  match longestGap pieces with
  | none => showPieces pieces
  | some (start, size) =>
      showPieces (pieces.take start) ++ ':' :: ':' :: showPieces (pieces.drop (start + size))

theorem mem_showAddress6 {pieces : List Nat} {c : Char} (hc : c ∈ showAddress6 pieces) :
    c = ':' ∨ ∃ d < 16, c = Nat.digitChar d := by
  have hshow : ∀ part : List Nat, c ∈ showPieces part →
      c = ':' ∨ ∃ d < 16, c = Nat.digitChar d := by
    intro part hc
    refine (mem_intercalate hc).imp_right ?_
    rintro ⟨group, hgroup, hc⟩
    obtain ⟨n, -, rfl⟩ := List.mem_map.mp hgroup
    exact mem_toDigits_hex hc
  unfold showAddress6 at hc
  split at hc
  · exact hshow _ hc
  · rcases List.mem_append.mp hc with hc | hc
    · exact hshow _ hc
    · rcases List.mem_cons.mp hc with rfl | hc
      · exact .inl rfl
      · rcases List.mem_cons.mp hc with rfl | hc
        · exact .inl rfl
        · exact hshow _ hc

theorem toList_renderAddress6 (pieces : List Nat) :
    (renderAddress6 pieces).toList = '[' :: (showAddress6 pieces ++ [']']) := by
  have hshow : ∀ part : List Nat, (String.intercalate ":" (part.map fun n =>
      String.ofList (Nat.toDigits 16 n))).toList = showPieces part := by
    intro part
    rw [String.toList_intercalate, List.map_map, showPieces]
    simp [Function.comp_def]
  unfold renderAddress6 showAddress6
  cases hgap : longestGap pieces with
  | none => simp [hshow]
  | some gap => simp only [String.toList_append, hshow]; simp

/-- An address as a reader gives it. -/
def IsAddress6 (pieces : List Nat) : Prop :=
  pieces.length = 8 ∧ ∀ p ∈ pieces, p < 65536

theorem address6?_show {pieces : List Nat} (h : IsAddress6 pieces) :
    address6? (showAddress6 pieces) = some pieces := by
  obtain ⟨hlength, hsmall⟩ := h
  unfold showAddress6
  cases hgap : longestGap pieces with
  | none =>
      have hnone : splitGap? (showPieces pieces) = none := by
        have hsplit := splitGap?_show pieces []
        rwa [List.append_nil] at hsplit
      simp [address6?, hnone, addressPieces?_show hsmall, hlength]
  | some gap =>
      obtain ⟨start, size⟩ := gap
      obtain ⟨hsize, hpieces⟩ := longestGap_spec hgap
      have hsplit := splitGap?_show (pieces.take start)
        (':' :: ':' :: showPieces (pieces.drop (start + size)))
      have hleft : ∀ p ∈ pieces.take start, p < 65536 := fun p hp =>
        hsmall p (List.mem_of_mem_take hp)
      have hright : ∀ p ∈ pieces.drop (start + size), p < 65536 := fun p hp =>
        hsmall p (List.mem_of_mem_drop hp)
      have hknown : (pieces.take start).length + (pieces.drop (start + size)).length = 8 - size ∧
          size ≤ 8 := by
        have htotal := congrArg List.length hpieces
        simp only [List.length_append, List.length_replicate] at htotal
        omega
      have hzeros : 8 - (8 - size) = size := by omega
      simp only [splitGap?, Option.map_some, List.append_nil] at hsplit
      simp only [address6?, hsplit, addressPieces?_show hleft, addressPieces?_show hright,
        Option.bind_eq_bind, Option.bind_some, hknown.1, hzeros]
      rw [if_pos (by omega), ← hpieces]

theorem addressByte?_lt {text : List Char} {n : Nat} (h : addressByte? text = some n) :
    n < 256 := by
  unfold addressByte? at h
  simp only at h
  split at h
  · cases h
  split at h
  · cases h
  split at h
  · next hsmall =>
      cases h
      exact hsmall
  · cases h

theorem addressPieces?_lt {allowEmbedded : Bool} {text : List Char} {pieces : List Nat}
    (h : addressPieces? allowEmbedded text = some pieces) : ∀ p ∈ pieces, p < 65536 := by
  have hplain : ∀ (groups : List (List Char)) (found : List Nat),
      groups.mapM addressPiece? = some found → ∀ p ∈ found, p < 65536 := by
    intro groups found hread p hp
    obtain ⟨group, -, hgroup⟩ := exists_of_mem_mapM hread hp
    exact addressPiece?_lt hgroup
  unfold addressPieces? at h
  split at h
  · cases h
    simp
  simp only at h
  split at h
  · obtain ⟨leading, hleading, h⟩ := Option.bind_eq_some_iff.mp h
    obtain ⟨tail, htail, h⟩ := Option.bind_eq_some_iff.mp h
    cases h
    intro p hp
    rcases List.mem_append.mp hp with hp | hp
    · exact hplain _ _ hleading p hp
    · unfold embedded4? at htail
      split at htail
      · next a b c d hbytes =>
          cases htail
          have hbyte : ∀ n ∈ [a, b, c, d], n < 256 := by
            intro n hn
            obtain ⟨part, -, hpart⟩ := exists_of_mem_mapM hbytes hn
            exact addressByte?_lt hpart
          simp only [List.mem_cons, List.not_mem_nil, or_false, forall_eq_or_imp, forall_eq]
            at hbyte hp
          omega
      · cases htail
  · exact hplain _ _ h

theorem isAddress6_of_read {text : List Char} {pieces : List Nat}
    (h : address6? text = some pieces) : IsAddress6 pieces := by
  unfold address6? at h
  split at h
  · obtain ⟨all, hall, h⟩ := Option.bind_eq_some_iff.mp h
    split at h
    · next hlength =>
        cases h
        exact ⟨hlength, addressPieces?_lt hall⟩
    · cases h
  · obtain ⟨left, hleft, h⟩ := Option.bind_eq_some_iff.mp h
    obtain ⟨right, hright, h⟩ := Option.bind_eq_some_iff.mp h
    simp only at h
    split at h
    · next hknown =>
        cases h
        refine ⟨by simp; omega, fun p hp => ?_⟩
        rcases List.mem_append.mp hp with hp | hp
        · rcases List.mem_append.mp hp with hp | hp
          · exact addressPieces?_lt hleft p hp
          · have hzero := List.eq_of_mem_replicate hp
            omega
        · exact addressPieces?_lt hright p hp
    · cases h

theorem bracketed?_render {pieces : List Nat} (h : IsAddress6 pieces) :
    bracketed? (renderAddress6 pieces).toList = some (renderAddress6 pieces) := by
  have hlast : ('[' :: (showAddress6 pieces ++ [']'])).getLast? = some ']' := by
    rw [← List.cons_append, List.getLast?_concat]
  rw [toList_renderAddress6, bracketed?, if_pos hlast, List.drop_one, List.tail_cons,
    List.dropLast_concat, address6?_show h]
  rfl

/-! ### Four bytes -/

/-- The bytes of an address, the highest first. -/
def addressBytes (n : Nat) : List Nat :=
  [24, 16, 8, 0].map fun place => n / Nat.pow 2 place % 256

theorem toList_renderAddress4 (n : Nat) : (renderAddress4 n).toList =
    ['.'].intercalate ((addressBytes n).map (Nat.toDigits 10)) := by
  simp only [renderAddress4, addressBytes, String.toList_intercalate, List.map_map]
  simp [Function.comp_def]

theorem isDigit_of_mem_bytes {n : Nat} {part : List Char}
    (hpart : part ∈ (addressBytes n).map (Nat.toDigits 10)) :
    part ≠ [] ∧ ∀ c ∈ part, c.isDigit = true := by
  obtain ⟨byte, -, rfl⟩ := List.mem_map.mp hpart
  exact ⟨Nat.toDigits_ne_nil, List.all_eq_true.mp (all_isDigit_toDigits byte)⟩

theorem isDigit_of_mem_address4 {n : Nat} {c : Char} (hc : c ∈ (renderAddress4 n).toList) :
    c = '.' ∨ c.isDigit = true := by
  rw [toList_renderAddress4] at hc
  refine (mem_intercalate hc).imp_right ?_
  rintro ⟨part, hpart, hc⟩
  exact (isDigit_of_mem_bytes hpart).2 c hc

theorem splitEvery_address4 (n : Nat) :
    splitEvery '.' (renderAddress4 n).toList = (addressBytes n).map (Nat.toDigits 10) := by
  rw [toList_renderAddress4]
  refine splitEvery_intercalate (List.cons_ne_nil _ _) fun part hpart h => ?_
  exact absurd ((isDigit_of_mem_bytes hpart).2 _ h) (by decide)

theorem domainParts_address4 (n : Nat) :
    domainParts (renderAddress4 n).toList = (addressBytes n).map (Nat.toDigits 10) := by
  rw [domainParts, splitEvery_address4]
  refine if_neg fun ⟨_, hlast⟩ => ?_
  exact (isDigit_of_mem_bytes (List.mem_of_getLast? hlast)).1 rfl

theorem endsInNumber_address4 (n : Nat) : endsInNumber (renderAddress4 n).toList = true := by
  rw [endsInNumber, domainParts_address4]
  cases hlast : ((addressBytes n).map (Nat.toDigits 10)).getLast? with
  | none => cases List.getLast?_eq_none_iff.mp hlast
  | some last =>
      obtain ⟨hsome, hall⟩ := isDigit_of_mem_bytes (List.mem_of_getLast? hlast)
      obtain ⟨c, tail, rfl⟩ := List.exists_cons_of_ne_nil hsome
      simp only [List.all_eq_true.mpr hall, Bool.true_or]

/-- A number in decimal digits is read as such, since it does not start with a zero in vain. -/
theorem addressNumber?_toDigits {n : Nat} (hn : n < Nat.pow 2 32) :
    addressNumber? (Nat.toDigits 10 n) = some (some n) := by
  have hvalue := foldlM_toDigits (show 1 < 10 by decide) (fun n c =>
    (hexDigit? (UInt8.ofNat c.toNat)).bind fun d =>
      if d < 10 ∧ c.toNat < 128 then some (n * 10 + d) else none)
    (fun n d hd => by
      obtain ⟨hascii, hread⟩ := hexDigit?_digitChar (show d < 16 by omega)
      simp [hread, hascii, hd, Nat.mul_comm]) n
  have hsome : (Nat.toDigits 10 n).isEmpty = false := by simp [Nat.toDigits_ne_nil]
  have hzero : ∀ c tail, Nat.toDigits 10 n ≠ '0' :: c :: tail := by
    intro c tail heq
    rcases Nat.eq_zero_or_pos n with rfl | hpos
    · cases heq
    · exact head?_toDigits (show 1 < 10 by decide) hpos (by rw [heq]; rfl)
  unfold addressNumber?
  split
  next radix digits hform =>
  split at hform
  · next h => exact absurd h (hzero _ _)
  · next h => exact absurd h (hzero _ _)
  · next h => exact absurd h (hzero _ _)
  · cases hform
    rw [hsome, if_neg Bool.false_ne_true]
    simp only [hvalue, Option.map_some]
    exact congrArg some (if_pos hn)

theorem addressBytes_lt {n byte : Nat} (hbyte : byte ∈ addressBytes n) : byte < 256 := by
  obtain ⟨place, -, rfl⟩ := List.mem_map.mp hbyte
  exact Nat.mod_lt _ (by decide)

theorem addressBytes_sum {a b c d : Nat} (ha : a < 256) (hb : b < 256) (hc : c < 256)
    (hd : d < 256) :
    addressBytes (a * 16777216 + b * 65536 + c * 256 + d) = [a, b, c, d] := by
  have hbytes : ∀ m, addressBytes m =
      [m / 16777216 % 256, m / 65536 % 256, m / 256 % 256, m % 256] := fun m => by
    simp [addressBytes]
  rw [hbytes]
  simp only [List.cons.injEq, and_true]
  omega

/-- The text of an address of four bytes is read as the address that it shows. -/
theorem address4?_render (n : Nat) :
    address4? (renderAddress4 n).toList = some (renderAddress4 n) := by
  have hnumbers : ((addressBytes n).map (Nat.toDigits 10)).mapM
      (fun part => (addressNumber? part).bind id) = some (addressBytes n) := by
    refine mapM_map fun byte hbyte => ?_
    rw [addressNumber?_toDigits (Nat.lt_trans (addressBytes_lt hbyte) (by decide))]
    rfl
  have hlimit := @addressBytes_lt n
  obtain ⟨a, b, c, d, hbytes⟩ : ∃ a b c d, addressBytes n = [a, b, c, d] := ⟨_, _, _, _, rfl⟩
  have hsame : renderAddress4 (a * 16777216 + b * 65536 + c * 256 + d) = renderAddress4 n := by
    rw [hbytes] at hlimit
    rw [← String.toList_inj, toList_renderAddress4, toList_renderAddress4, hbytes,
      addressBytes_sum (hlimit (by simp)) (hlimit (by simp)) (hlimit (by simp))
        (hlimit (by simp))]
  rw [hbytes] at hnumbers hlimit
  have hsmall : ¬(Nat.pow 2 (8 * (4 - [a, b, c].length)) ≤ d ∨
      ([a, b, c].any (255 < ·)) = true) := by
    have ha := hlimit (show a ∈ [a, b, c, d] by simp)
    have hb := hlimit (show b ∈ [a, b, c, d] by simp)
    have hc := hlimit (show c ∈ [a, b, c, d] by simp)
    have hd := hlimit (show d ∈ [a, b, c, d] by simp)
    simp
    omega
  rw [address4?, domainParts_address4, hbytes]
  simp only [hnumbers, List.length_map]
  rw [if_neg (by simp)]
  refine (if_neg hsmall).trans ?_
  rw [← hsame]
  simp [List.zipIdx]

end TickHost.Url
