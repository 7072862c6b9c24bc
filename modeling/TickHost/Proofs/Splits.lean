import TickHost.Text.Words

/-!
Cutting text and putting it together. What is joined by separators is cut at them again, where the
parts hold none of their own; and the parts of a text hold no separators, and nothing else than the
text.
-/

namespace TickHost.Text

/-- What a test finds true of all of a list holds of all of them. -/
theorem forall_of_all {α : Type} {p : α → Prop} [DecidablePred p] {xs : List α}
    (h : (xs.all fun x => p x) = true) : ∀ x ∈ xs, p x := by
  simpa using h

/-- Two characters are different if a test tells them apart. -/
theorem ne_of_test {α : Type} {test : α → Bool} {x y : α} (hx : test x = true)
    (hy : test y = false) : x ≠ y := by
  rintro rfl
  exact Bool.false_ne_true (hy.symm.trans hx)

/-- What passes a test is none of the marks, if none of the marks passes it. -/
theorem contains_eq_false {test : Char → Bool} {marks : List Char}
    (hmarks : (marks.all fun c => !test c) = true) {c : Char} (hc : test c = true) :
    marks.contains c = false := by
  rw [Bool.eq_false_iff]
  intro hmem
  have hfalse := List.all_eq_true.mp hmarks c (List.contains_iff_mem.mp hmem)
  rw [hc] at hfalse
  exact Bool.false_ne_true hfalse

/-! ### All separators -/

section

variable {α : Type} {isSeparator : α → Bool} {x : α} {xs part rest : List α}

theorem splitWhere_cons_true (hx : isSeparator x = true) :
    splitWhere isSeparator (x :: xs) = [] :: splitWhere isSeparator xs := by
  rw [splitWhere, if_pos hx]

theorem splitWhere_cons_false (hx : isSeparator x = false) (xs : List α) : ∃ part parts,
    splitWhere isSeparator xs = part :: parts ∧
      splitWhere isSeparator (x :: xs) = (x :: part) :: parts := by
  induction xs generalizing x with
  | nil => exact ⟨[], [], rfl, by simp [splitWhere, hx]⟩
  | cons y xs ih =>
      cases hy : isSeparator y with
      | true =>
          refine ⟨_, _, splitWhere_cons_true hy, ?_⟩
          rw [splitWhere, hx, splitWhere_cons_true hy]
          rfl
      | false =>
          obtain ⟨part, parts, -, hparts⟩ := ih hy
          refine ⟨_, _, hparts, ?_⟩
          rw [splitWhere, hx, hparts]
          rfl

theorem splitWhere_ne_nil (isSeparator : α → Bool) (xs : List α) :
    splitWhere isSeparator xs ≠ [] := by
  cases xs with
  | nil => simp [splitWhere]
  | cons x xs =>
      cases hx : isSeparator x with
      | true => simp [splitWhere_cons_true hx]
      | false =>
          obtain ⟨part, parts, -, hparts⟩ := splitWhere_cons_false hx xs
          simp [hparts]

theorem splitWhere_append (hpart : ∀ y ∈ part, isSeparator y = false)
    (hx : isSeparator x = true) : splitWhere isSeparator (part ++ x :: rest) =
      part :: splitWhere isSeparator rest := by
  induction part with
  | nil => exact splitWhere_cons_true hx
  | cons y part ih =>
      have hmore := ih fun z hz => hpart z (List.mem_cons_of_mem y hz)
      rw [List.cons_append, splitWhere, hpart y List.mem_cons_self, hmore]
      rfl

theorem splitWhere_eq_singleton (hpart : ∀ y ∈ part, isSeparator y = false) :
    splitWhere isSeparator part = [part] := by
  induction part with
  | nil => rfl
  | cons y part ih =>
      have hmore := ih fun z hz => hpart z (List.mem_cons_of_mem y hz)
      rw [splitWhere, hpart y List.mem_cons_self, hmore]
      rfl

theorem splitWhere_parts (hx : isSeparator x = true) {parts : List (List α)}
    (hparts : ∀ part ∈ parts, ∀ y ∈ part, isSeparator y = false) {first : List α}
    (hfirst : ∀ y ∈ first, isSeparator y = false) :
    splitWhere isSeparator (first ++ parts.flatMap (x :: ·)) = first :: parts := by
  induction parts generalizing first with
  | nil => simpa using splitWhere_eq_singleton hfirst
  | cons part parts ih =>
      rw [List.flatMap_cons, List.cons_append, splitWhere_append hfirst hx,
        ih (fun part hpart => hparts part (List.mem_cons_of_mem _ hpart))
          (hparts part List.mem_cons_self)]

/-- Parts with a separator before each are cut into these parts. -/
theorem splitWhere_flatMap (hx : isSeparator x = true) {parts : List (List α)}
    (hparts : ∀ part ∈ parts, ∀ y ∈ part, isSeparator y = false) :
    splitWhere isSeparator (parts.flatMap (x :: ·)) = [] :: parts := by
  have hnone : ∀ y ∈ ([] : List α), isSeparator y = false := by simp
  exact splitWhere_parts hx hparts hnone

theorem intercalate_cons (x : α) (first : List α) (parts : List (List α)) :
    [x].intercalate (first :: parts) = first ++ parts.flatMap (x :: ·) := by
  induction parts generalizing first with
  | nil => simp
  | cons part parts ih =>
      rw [List.intercalate_cons_cons, ih, List.flatMap_cons]
      simp

theorem mem_intercalate {y : α} {parts : List (List α)} (h : y ∈ [x].intercalate parts) :
    y = x ∨ ∃ part ∈ parts, y ∈ part := by
  cases parts with
  | nil => cases h
  | cons first parts =>
      rw [intercalate_cons] at h
      rcases List.mem_append.mp h with h | h
      · exact .inr ⟨first, List.mem_cons_self, h⟩
      · obtain ⟨part, hpart, h⟩ := List.mem_flatMap.mp h
        rcases List.mem_cons.mp h with rfl | h
        · exact .inl rfl
        · exact .inr ⟨part, List.mem_cons_of_mem _ hpart, h⟩

/-- Parts with separators between them are cut into these parts. -/
theorem splitWhere_intercalate (hx : isSeparator x = true) {parts : List (List α)}
    (hsome : parts ≠ []) (hparts : ∀ part ∈ parts, ∀ y ∈ part, isSeparator y = false) :
    splitWhere isSeparator ([x].intercalate parts) = parts := by
  obtain ⟨first, parts, rfl⟩ := List.exists_cons_of_ne_nil hsome
  rw [intercalate_cons]
  exact splitWhere_parts hx (fun part hpart => hparts part (List.mem_cons_of_mem _ hpart))
    (hparts first List.mem_cons_self)

/-- The parts of a text, with a separator before each, are the text with one before it. -/
theorem flatMap_splitWhere [BEq α] [LawfulBEq α] (x : α) (xs : List α) :
    (splitWhere (· == x) xs).flatMap (x :: ·) = x :: xs := by
  induction xs with
  | nil => rfl
  | cons y xs ih =>
      have hsplit : ∀ hy : (y == x) = true, splitWhere (· == x) (y :: xs) =
          [] :: splitWhere (· == x) xs := fun hy => by rw [splitWhere, if_pos hy]
      cases hy : y == x with
      | true =>
          rw [hsplit hy, List.flatMap_cons, ih, eq_of_beq hy]
          rfl
      | false =>
          obtain ⟨part, parts, hrest, hall⟩ := @splitWhere_cons_false α (· == x) y hy xs
          rw [hrest, List.flatMap_cons, List.cons_append] at ih
          rw [hall, List.flatMap_cons, List.cons_append, List.cons_append,
            (List.cons.inj ih).2]

theorem mem_splitWhere (hpart : part ∈ splitWhere isSeparator xs) (hx : x ∈ part) :
    x ∈ xs ∧ isSeparator x = false := by
  induction xs generalizing part with
  | nil =>
      obtain rfl := List.mem_singleton.mp hpart
      cases hx
  | cons y xs ih =>
      cases hy : isSeparator y with
      | true =>
          rw [splitWhere_cons_true hy] at hpart
          rcases List.mem_cons.mp hpart with rfl | hpart
          · cases hx
          · obtain ⟨hmem, hnot⟩ := ih hpart hx
            exact ⟨List.mem_cons_of_mem y hmem, hnot⟩
      | false =>
          obtain ⟨first, parts, hrest, hall⟩ := splitWhere_cons_false hy xs
          rw [hrest] at ih
          rw [hall] at hpart
          rcases List.mem_cons.mp hpart with rfl | hpart
          · rcases List.mem_cons.mp hx with rfl | hx
            · exact ⟨List.mem_cons_self, hy⟩
            · obtain ⟨hmem, hnot⟩ := ih List.mem_cons_self hx
              exact ⟨List.mem_cons_of_mem y hmem, hnot⟩
          · obtain ⟨hmem, hnot⟩ := ih (List.mem_cons_of_mem first hpart) hx
            exact ⟨List.mem_cons_of_mem y hmem, hnot⟩

/-- A run without separators lies in one part. -/
theorem exists_mem_splitWhere (hpart : ∀ y ∈ part, isSeparator y = false) (before after : List α) :
    ∃ whole ∈ splitWhere isSeparator (before ++ part ++ after), part.length ≤ whole.length := by
  induction before with
  | nil =>
      rw [List.nil_append]
      suffices h : ∃ first parts, splitWhere isSeparator (part ++ after) = first :: parts ∧
          part.length ≤ first.length by
        obtain ⟨first, parts, hsplit, hlength⟩ := h
        exact ⟨first, hsplit ▸ List.mem_cons_self, hlength⟩
      induction part with
      | nil =>
          obtain ⟨first, parts, hsplit⟩ :=
            List.exists_cons_of_ne_nil (splitWhere_ne_nil isSeparator after)
          exact ⟨first, parts, hsplit, Nat.zero_le _⟩
      | cons y part ih =>
          obtain ⟨first, parts, hsplit, hlength⟩ :=
            ih fun z hz => hpart z (List.mem_cons_of_mem y hz)
          obtain ⟨first', parts', hrest, hall⟩ :=
            splitWhere_cons_false (hpart y List.mem_cons_self) (part ++ after)
          obtain ⟨rfl, rfl⟩ := List.cons.inj (hsplit.symm.trans hrest)
          exact ⟨_, _, hall, Nat.succ_le_succ hlength⟩
  | cons y before ih =>
      obtain ⟨whole, hwhole, hlength⟩ := ih
      cases hy : isSeparator y with
      | true =>
          rw [List.cons_append, List.cons_append, splitWhere_cons_true hy]
          exact ⟨whole, List.mem_cons_of_mem _ hwhole, hlength⟩
      | false =>
          obtain ⟨first, parts, hrest, hall⟩ :=
            splitWhere_cons_false hy (before ++ part ++ after)
          rw [List.cons_append, List.cons_append, hall]
          rw [hrest] at hwhole
          rcases List.mem_cons.mp hwhole with rfl | hwhole
          · exact ⟨_, List.mem_cons_self, Nat.le_succ_of_le hlength⟩
          · exact ⟨whole, List.mem_cons_of_mem _ hwhole, hlength⟩

end

theorem splitEvery_intercalate {c : Char} {parts : List (List Char)} (hsome : parts ≠ [])
    (hparts : ∀ part ∈ parts, c ∉ part) : splitEvery c ([c].intercalate parts) = parts := by
  refine splitWhere_intercalate ?_ hsome fun part hpart y hy => ?_
  · exact beq_self_eq_true c
  · exact beq_false_of_ne fun h => hparts part hpart (h ▸ hy)

/-! ### The first and the last one -/

variable {c : Char} {text before after : List Char}

theorem splitFirst?_append (hbefore : c ∉ before) :
    splitFirst? c (before ++ c :: after) = some (before, after) := by
  induction before with
  | nil => simp [splitFirst?]
  | cons x before ih =>
      rw [List.mem_cons, not_or] at hbefore
      rw [List.cons_append, splitFirst?, if_neg (Ne.symm hbefore.1), ih hbefore.2]
      rfl

theorem splitFirst?_eq_none (htext : c ∉ text) : splitFirst? c text = none := by
  induction text with
  | nil => rfl
  | cons x text ih =>
      rw [List.mem_cons, not_or] at htext
      rw [splitFirst?, if_neg (Ne.symm htext.1), ih htext.2]
      rfl

theorem splitFirst?_eq_some_iff : splitFirst? c text = some (before, after) ↔
    text = before ++ c :: after ∧ c ∉ before := by
  refine ⟨fun h => ?_, fun ⟨htext, hbefore⟩ => htext ▸ splitFirst?_append hbefore⟩
  induction text generalizing before with
  | nil => cases h
  | cons x text ih =>
      rw [splitFirst?] at h
      split at h
      · rename_i hx
        cases h
        exact ⟨by rw [hx]; rfl, by simp⟩
      · rename_i hx
        obtain ⟨⟨rest, last⟩, hrest, heq⟩ := Option.map_eq_some_iff.mp h
        cases heq
        obtain ⟨rfl, hnot⟩ := ih hrest
        exact ⟨rfl, by simp [Ne.symm hx, hnot]⟩

theorem splitFirst?_eq_none_iff : splitFirst? c text = none ↔ c ∉ text := by
  refine ⟨fun h hmem => ?_, splitFirst?_eq_none⟩
  obtain ⟨before, after, rfl, hbefore⟩ := List.eq_append_cons_of_mem hmem
  rw [splitFirst?_append hbefore] at h
  cases h

theorem splitLast?_append (hafter : c ∉ after) :
    splitLast? c (before ++ c :: after) = some (before, after) := by
  have hreverse : (before ++ c :: after).reverse = after.reverse ++ c :: before.reverse := by simp
  rw [splitLast?, hreverse, splitFirst?_append (by simpa using hafter)]
  simp

theorem splitLast?_eq_none (htext : c ∉ text) : splitLast? c text = none := by
  rw [splitLast?, splitFirst?_eq_none (by simpa using htext)]
  rfl

/-! ### Reading the parts -/

section

variable {α β : Type} {f : α → Option β} {xs : List α} {ys : List β}

theorem mapM_map {g : β → α} (h : ∀ y ∈ ys, f (g y) = some y) : (ys.map g).mapM f = some ys := by
  induction ys with
  | nil => rfl
  | cons y ys ih =>
      rw [List.map_cons, List.mapM_cons, h y List.mem_cons_self,
        ih fun y hy => h y (List.mem_cons_of_mem _ hy)]
      rfl

theorem mapM_eq_self {f : α → Option α} (h : ∀ x ∈ xs, f x = some x) : xs.mapM f = some xs := by
  have hread := mapM_map (f := f) (g := id) h
  rwa [List.map_id] at hread

theorem mapM_cons_eq_some {x : α} : (x :: xs).mapM f = some ys ↔
    ∃ y rest, f x = some y ∧ xs.mapM f = some rest ∧ ys = y :: rest := by
  rw [List.mapM_cons]
  constructor
  · intro h
    obtain ⟨y, hy, h⟩ := Option.bind_eq_some_iff.mp h
    obtain ⟨rest, hrest, h⟩ := Option.bind_eq_some_iff.mp h
    exact ⟨y, rest, hy, hrest, (Option.some.inj h).symm⟩
  · rintro ⟨y, rest, hy, hrest, rfl⟩
    rw [hy, hrest]
    rfl

theorem length_of_mapM (h : xs.mapM f = some ys) : ys.length = xs.length := by
  induction xs generalizing ys with
  | nil =>
      cases h
      rfl
  | cons x xs ih =>
      obtain ⟨y, rest, -, hrest, rfl⟩ := mapM_cons_eq_some.mp h
      rw [List.length_cons, List.length_cons, ih hrest]

theorem exists_of_mem_mapM (h : xs.mapM f = some ys) {y : β} (hy : y ∈ ys) :
    ∃ x ∈ xs, f x = some y := by
  induction xs generalizing ys with
  | nil =>
      cases h
      cases hy
  | cons x xs ih =>
      obtain ⟨first, rest, hfirst, hrest, rfl⟩ := mapM_cons_eq_some.mp h
      rcases List.mem_cons.mp hy with rfl | hy
      · exact ⟨x, List.mem_cons_self, hfirst⟩
      · obtain ⟨x', hx', hread⟩ := ih hrest hy
        exact ⟨x', List.mem_cons_of_mem _ hx', hread⟩

end

end TickHost.Text
