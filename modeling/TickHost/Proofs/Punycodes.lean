import TickHost.Url.Punycode

/-!
Punycode, there and back. The writer passes over the name once for each code point and counts what
it passes; the reader turns the counts into a code point and a place again. At each moment the
reader knows exactly the characters that the writer has handled, and what the writer has counted is
the way from the reader's place to its own.
-/

namespace TickHost.Url.Punycode

variable {name more : List Char} {c : Char}

/-! ### Numbers -/

/-- What a digit can be written as. -/
def IsDigit (c : Char) : Prop :=
  ∃ d < 36, c = digit d

theorem digitValue?_digit {d : Nat} (hd : d < 36) : digitValue? (digit d) = some d := by
  have hall : ∀ d < 36, digitValue? (digit d) = some d := by decide
  exact hall d hd

theorem IsDigit.plain (h : IsDigit c) :
    c.toNat < 128 ∧ c ≠ '-' ∧ c ≠ '.' ∧ (c.toNat < 0x41 ∨ 0x5a < c.toNat) := by
  have hall : ∀ d < 36, (digit d).toNat < 128 ∧ digit d ≠ '-' ∧ digit d ≠ '.' ∧
      ((digit d).toNat < 0x41 ∨ 0x5a < (digit d).toNat) := by
    decide
  obtain ⟨d, hd, rfl⟩ := h
  exact hall d hd

theorem encodeNumber_ne_nil (bias place n : Nat) : encodeNumber bias place n ≠ [] := by
  rw [encodeNumber]
  split <;> exact List.cons_ne_nil _ _

theorem isDigit_of_mem_encodeNumber {bias place n : Nat} (hc : c ∈ encodeNumber bias place n) :
    IsDigit c := by
  induction n using Nat.strongRecOn generalizing place with
  | ind n ih =>
      have hlow := threshold_pos place bias
      have hhigh := threshold_le place bias
      rw [encodeNumber] at hc
      split at hc
      · obtain rfl := List.mem_singleton.mp hc
        exact ⟨n, by omega, rfl⟩
      · rcases List.mem_cons.mp hc with rfl | hc
        · have hmod := Nat.mod_lt (n - threshold place bias)
            (show 0 < 36 - threshold place bias by omega)
          exact ⟨_, by omega, rfl⟩
        · have hless := Nat.div_le_self (n - threshold place bias) (36 - threshold place bias)
          exact ih _ (by omega) hc

/-- A number is read with its weight, and nothing after it is read. -/
theorem decodeNumber?_encodeNumber (bias place weight n d : Nat) (rest : List Char) :
    decodeNumber? bias place weight n (encodeNumber bias place d ++ rest) =
      some (n + d * weight, rest) := by
  induction d using Nat.strongRecOn generalizing place weight n with
  | ind d ih =>
      have hlow := threshold_pos place bias
      have hhigh := threshold_le place bias
      rw [encodeNumber]
      split
      · next hsmall =>
          simp [decodeNumber?, digitValue?_digit (show d < 36 by omega), hsmall]
      · next hlarge =>
          have hmod := Nat.mod_lt (d - threshold place bias)
            (show 0 < 36 - threshold place bias by omega)
          have hless := Nat.div_le_self (d - threshold place bias) (36 - threshold place bias)
          have hsum := Nat.mod_add_div (d - threshold place bias) (36 - threshold place bias)
          have hstep := ih ((d - threshold place bias) / (36 - threshold place bias)) (by omega)
            (place + 36) (weight * (36 - threshold place bias))
            (n + (threshold place bias + (d - threshold place bias) %
              (36 - threshold place bias)) * weight)
          rw [List.cons_append, decodeNumber?,
            digitValue?_digit (show threshold place bias + (d - threshold place bias) %
              (36 - threshold place bias) < 36 by omega)]
          simp only
          rw [if_neg (by omega), hstep]
          generalize (d - threshold place bias) % (36 - threshold place bias) = low at *
          generalize (d - threshold place bias) / (36 - threshold place bias) = high at *
          generalize threshold place bias = t at *
          have hd : d = t + low + (36 - t) * high := by omega
          have hhigh : high * (weight * (36 - t)) = (36 - t) * high * weight := by
            rw [Nat.mul_comm weight, ← Nat.mul_assoc, Nat.mul_comm high]
          rw [hd, hhigh, Nat.add_assoc, ← Nat.add_mul]

/-! ### The reader -/

/-- What the reader knows before it reads a number. -/
structure Reader where
  point : Nat
  position : Nat
  bias : Nat
  name : List Char

/-- From here on, the digits are read as a name. -/
def Reads (r : Reader) (digits name : List Char) : Prop :=
  ∀ fuel, digits.length ≤ fuel →
    decodeAll? fuel r.point r.position r.bias r.name digits = some name

theorem reads_nil (r : Reader) : Reads r [] r.name := by
  intro fuel _
  unfold decodeAll?
  rfl

/-- The reader after it has read a number, which said to put a character at an index. -/
def Reader.insert (r : Reader) (delta index : Nat) (c : Char) : Reader where
  point := c.toNat
  position := index + 1
  bias := adapt delta (r.name.length + 1) (r.position = 0)
  name := r.name.take index ++ c :: r.name.drop index

theorem reads_number {r : Reader} {delta index : Nat} (hpoint : r.point ≤ c.toNat)
    (hindex : index ≤ r.name.length)
    (htotal : delta + r.position = (c.toNat - r.point) * (r.name.length + 1) + index)
    (h : Reads (r.insert delta index c) more name) :
    Reads r (encodeNumber r.bias 36 delta ++ more) name := by
  intro fuel hfuel
  obtain ⟨first, digits, hdigits⟩ :=
    List.exists_cons_of_ne_nil (encodeNumber_ne_nil r.bias 36 delta)
  have hread := decodeNumber?_encodeNumber r.bias 36 1 r.position delta more
  rw [hdigits, List.cons_append] at hfuel hread ⊢
  simp only [List.length_cons, List.length_append] at hfuel
  obtain ⟨fuel, rfl⟩ : ∃ less, fuel = less + 1 := ⟨fuel - 1, by omega⟩
  have hnumber : r.position + delta * 1 = (c.toNat - r.point) * (r.name.length + 1) + index := by
    omega
  have hdiv : (r.position + delta * 1) / (r.name.length + 1) = c.toNat - r.point := by
    rw [hnumber, Nat.mul_comm, Nat.mul_add_div (by omega), Nat.div_eq_of_lt (by omega),
      Nat.add_zero]
  have hmod : (r.position + delta * 1) % (r.name.length + 1) = index := by
    rw [hnumber, Nat.mul_comm, Nat.mul_add_mod, Nat.mod_eq_of_lt (by omega)]
  have hchar : c.toNat < 0x110000 ∧ ¬(0xd800 ≤ c.toNat ∧ c.toNat < 0xe000) := by
    have hvalid : c.toNat < 0xd800 ∨ 0xdfff < c.toNat ∧ c.toNat < 0x110000 := c.valid
    omega
  have hdelta : r.position + delta * 1 - r.position = delta := by omega
  have hsum : r.point + (c.toNat - r.point) = c.toNat := by omega
  rw [decodeAll?, hread]
  simp only [hdiv, hmod, hdelta, hsum, Char.ofNat_toNat]
  · rw [if_pos hchar]
    exact h fuel (by omega)
  · exact List.cons_ne_nil _ _

/-! ### The writer -/

/-- The writer is in the round of the code point `target` and has passed `seen`; the characters of
`left` are still to come. -/
structure Tracks (plain target : Nat) (s : State) (seen left : List Char) (r : Reader) : Prop where
  known : r.name = seen.filter (·.toNat ≤ target) ++ left.filter (·.toNat < target)
  handled : s.handled = r.name.length
  bias : s.bias = r.bias
  reached : r.point ≤ target
  ahead : s.delta + r.position =
    (target - r.point) * (s.handled + 1) + (seen.filter (·.toNat ≤ target)).length
  least : plain ≤ s.handled
  fresh : r.position = 0 ↔ s.handled = plain

/-- The writer goes on with digits that take one reader to another. -/
def Writes (s s' : State) (r r' : Reader) : Prop :=
  ∃ digits, s'.written = s.written ++ digits ∧ (∀ c ∈ digits, IsDigit c) ∧
    ∀ more name, Reads r' more name → Reads r (digits ++ more) name

theorem Writes.refl (s : State) (r : Reader) : Writes s s r r :=
  ⟨[], (List.append_nil _).symm, by simp, fun _ _ h => h⟩

theorem Writes.trans {s s' s'' : State} {r r' r'' : Reader} (h : Writes s s' r r')
    (h' : Writes s' s'' r' r'') : Writes s s'' r r'' := by
  obtain ⟨digits, hwritten, hdigits, hreads⟩ := h
  obtain ⟨digits', hwritten', hdigits', hreads'⟩ := h'
  refine ⟨digits ++ digits', by rw [hwritten', hwritten, List.append_assoc], ?_, ?_⟩
  · intro c hc
    exact (List.mem_append.mp hc).elim (hdigits c) (hdigits' c)
  · intro more name hmore
    rw [List.append_assoc]
    exact hreads _ _ (hreads' _ _ hmore)

/-- A character of the round is written as a number, and the reader puts it in its place. -/
theorem visit_reached {plain target : Nat} {s : State} {seen left : List Char} {r : Reader}
    (h : Tracks plain target s seen (c :: left) r) (heq : c.toNat = target) : ∃ r',
      Writes s (visit plain target s c) r r' ∧
        Tracks plain target (visit plain target s c) (seen ++ [c]) left r' := by
  obtain ⟨hname, hhandled, hbias, hpoint, hahead, hleast, hfresh⟩ := h
  have hseen : (seen ++ [c]).filter (·.toNat ≤ target) =
      seen.filter (·.toNat ≤ target) ++ [c] := by
    rw [List.filter_append, List.filter_cons_of_pos (by simp; omega), List.filter_nil]
  rw [List.filter_cons_of_neg (by simp; omega)] at hname
  unfold visit
  rw [if_neg (by omega), if_pos heq]
  generalize hknown : seen.filter (·.toNat ≤ target) = known at hname hahead hseen
  have hlength : r.name.length = known.length + (left.filter (·.toNat < target)).length := by
    rw [hname, List.length_append]
  have hinsert : (r.insert s.delta known.length c).name =
      known ++ c :: left.filter (·.toNat < target) := by
    simp [Reader.insert, hname]
  refine ⟨r.insert s.delta known.length c,
    ⟨encodeNumber s.bias 36 s.delta, rfl, fun _ => isDigit_of_mem_encodeNumber, ?_⟩,
    ?_, ?_, ?_, Nat.le_of_eq heq, ?_, Nat.le_succ_of_le hleast, ?_⟩
  · intro more name hmore
    rw [hbias]
    exact reads_number (by omega) (by omega) (by rw [hahead, hhandled, heq]) hmore
  · rw [hseen, hinsert, List.append_assoc, List.singleton_append]
  · rw [hinsert, hhandled, hlength]
    simp
    omega
  · simp only [Reader.insert, ← hhandled, decide_eq_decide.mpr hfresh]
  · rw [hseen]
    simp [Reader.insert, heq]
  · simp only [Reader.insert]
    omega

theorem visit_writes {plain target : Nat} {s : State} {seen left : List Char} {r : Reader}
    (h : Tracks plain target s seen (c :: left) r) : ∃ r',
      Writes s (visit plain target s c) r r' ∧
        Tracks plain target (visit plain target s c) (seen ++ [c]) left r' := by
  by_cases heq : c.toNat = target
  · exact visit_reached h heq
  obtain ⟨hname, hhandled, hbias, hpoint, hahead, hleast, hfresh⟩ := h
  unfold visit
  by_cases hless : c.toNat < target
  · have hseen : (seen ++ [c]).filter (·.toNat ≤ target) =
        seen.filter (·.toNat ≤ target) ++ [c] := by
      rw [List.filter_append, List.filter_cons_of_pos (by simp; omega), List.filter_nil]
    rw [List.filter_cons_of_pos (by simpa using hless)] at hname
    rw [if_pos hless]
    refine ⟨r, Writes.refl _ r, ?_, hhandled, hbias, hpoint, ?_, hleast, hfresh⟩
    · rw [hseen, hname, List.append_assoc, List.singleton_append]
    · rw [hseen, List.length_append]
      simp only [List.length_cons, List.length_nil]
      omega
  · have hseen : (seen ++ [c]).filter (·.toNat ≤ target) = seen.filter (·.toNat ≤ target) := by
      rw [List.filter_append, List.filter_cons_of_neg (by simp; omega), List.filter_nil,
        List.append_nil]
    rw [List.filter_cons_of_neg (by simpa using hless)] at hname
    rw [if_neg hless, if_neg heq]
    exact ⟨r, Writes.refl s r, by rw [hseen, hname], hhandled, hbias, hpoint, by rw [hseen, hahead],
      hleast, hfresh⟩

theorem round_writes {plain target : Nat} {left : List Char} {s : State} {seen : List Char}
    {r : Reader} (h : Tracks plain target s seen left r) : ∃ r',
      Writes s (left.foldl (visit plain target) s) r r' ∧
        Tracks plain target (left.foldl (visit plain target) s) (seen ++ left) [] r' := by
  induction left generalizing s seen r with
  | nil => exact ⟨r, Writes.refl s r, by simpa using h⟩
  | cons c left ih =>
      obtain ⟨r', hvisit, htracks⟩ := visit_writes h
      obtain ⟨r'', hrest, hend⟩ := ih htracks
      exact ⟨r'', hvisit.trans hrest, by simpa using hend⟩

/-- The writer is about to begin its next round, having handled all code points below `point`. -/
structure Between (name : List Char) (plain point : Nat) (s : State) (r : Reader) : Prop where
  known : r.name = name.filter (·.toNat < point)
  handled : s.handled = r.name.length
  bias : s.bias = r.bias
  reached : r.point ≤ point
  ahead : s.delta + r.position = (point - r.point) * (s.handled + 1)
  least : plain ≤ s.handled
  fresh : r.position = 0 ↔ s.handled = plain

/-- A round of the writer for the next code point of the name. -/
def round (name : List Char) (plain point target : Nat) (s : State) : State :=
  let s := { s with delta := s.delta + (target - point) * (s.handled + 1) }
  let s := name.foldl (visit plain target) s
  { s with delta := s.delta + 1 }

theorem Between.round {plain point target : Nat} {s : State} {r : Reader}
    (h : Between name plain point s r) (hpoint : point ≤ target)
    (hnone : ∀ c ∈ name, c.toNat < target → c.toNat < point) : ∃ r',
      Writes s (round name plain point target s) r r' ∧
        Between name plain (target + 1) (round name plain point target s) r' := by
  obtain ⟨hname, hhandled, hbias, hreader, hahead, hleast, hfresh⟩ := h
  have hbelow : name.filter (·.toNat < point) = name.filter (·.toNat < target) :=
    List.filter_congr fun c hc => decide_eq_decide.mpr ⟨by omega, hnone c hc⟩
  have hstart : Tracks plain target { s with delta := s.delta + (target - point) * (s.handled + 1) }
      [] name r :=
    ⟨by simpa [hbelow] using hname, hhandled, hbias, by omega, by
      have hsplit : target - r.point = (target - point) + (point - r.point) := by omega
      simp only [hsplit, Nat.add_mul, List.filter_nil, List.length_nil]
      omega, hleast, hfresh⟩
  obtain ⟨r', hwrites, htracks⟩ := round_writes hstart
  simp only [List.nil_append] at htracks
  obtain ⟨hname', hhandled', hbias', hreader', hahead', hleast', hfresh'⟩ := htracks
  rw [List.filter_nil, List.append_nil] at hname'
  rw [← hname', ← hhandled'] at hahead'
  refine ⟨r', hwrites, ?_, hhandled', hbias', by omega, ?_, hleast', hfresh'⟩
  · simpa [Nat.lt_succ_iff] using hname'
  · have hnext : target + 1 - r'.point = (target - r'.point) + 1 := by omega
    simp only [TickHost.Url.Punycode.round, hnext, Nat.add_mul]
    omega

theorem rounds_write {plain : Nat} {targets : List Nat} {point : Nat} {s : State} {r : Reader}
    (h : Between name plain point s r) (hsorted : targets.Pairwise (· < ·))
    (hfirst : ∀ t ∈ targets, point ≤ t)
    (hall : ∀ c ∈ name, c.toNat < point ∨ c.toNat ∈ targets) : ∃ r',
      Writes s (targets.foldl (fun (s, point) target =>
        (round name plain point target s, target + 1)) (s, point)).1 r r' ∧ r'.name = name := by
  induction targets generalizing point s r with
  | nil =>
      refine ⟨r, Writes.refl s r, ?_⟩
      rw [h.known, List.filter_eq_self]
      intro c hc
      simpa using hall c hc
  | cons target targets ih =>
      obtain ⟨hbefore, hsorted⟩ := List.pairwise_cons.mp hsorted
      obtain ⟨r', hround, hbetween⟩ := h.round (hfirst target List.mem_cons_self) (by
        intro c hc hless
        refine (hall c hc).resolve_right fun hmem => ?_
        rcases List.mem_cons.mp hmem with heq | hmem
        · omega
        · have := hbefore _ hmem
          omega)
      obtain ⟨r'', hrest, hname⟩ := ih hbetween hsorted
        (fun t ht => hbefore t ht) (by
          intro c hc
          rcases hall c hc with hless | hmem
          · exact .inl (by have := hfirst target List.mem_cons_self; omega)
          · rcases List.mem_cons.mp hmem with heq | hmem
            · exact .inl (by omega)
            · exact .inr hmem)
      exact ⟨r'', hround.trans hrest, hname⟩

/-! ### Names -/

theorem pairwise_eraseDups {ns : List Nat} (h : ns.Pairwise (· ≤ ·)) :
    ns.eraseDups.Pairwise (· < ·) := by
  induction hlength : ns.length using Nat.strongRecOn generalizing ns with
  | ind length ih =>
      cases ns with
      | nil => exact List.Pairwise.nil
      | cons n ns =>
          obtain ⟨hfirst, hrest⟩ := List.pairwise_cons.mp h
          have hless : (ns.filter fun m => !m == n).length < length := by
            have := List.length_filter_le (fun m => !m == n) ns
            simp only [List.length_cons] at hlength
            omega
          rw [List.eraseDups_cons]
          refine List.pairwise_cons.mpr ⟨?_, ih _ hless (hrest.sublist List.filter_sublist) rfl⟩
          intro m hm
          obtain ⟨hmem, hne⟩ := List.mem_filter.mp (List.mem_eraseDups.mp hm)
          have hle := hfirst m hmem
          simp only [Bool.not_eq_true', beq_eq_false_iff_ne, ne_eq] at hne
          omega

theorem mem_targets {n : Nat} : n ∈ targets name ↔ 128 ≤ n ∧ ∃ c ∈ name, c.toNat = n := by
  simp [targets, List.mem_eraseDups, List.mem_mergeSort, and_comm]

theorem pairwise_targets (name : List Char) : (targets name).Pairwise (· < ·) := by
  refine pairwise_eraseDups ?_
  have htrans : ∀ a b c : Nat, decide (a ≤ b) = true → decide (b ≤ c) = true →
      decide (a ≤ c) = true := by
    simp only [decide_eq_true_eq]
    omega
  have htotal : ∀ a b : Nat, (decide (a ≤ b) || decide (b ≤ a)) = true := by
    simp only [Bool.or_eq_true, decide_eq_true_eq]
    omega
  have hsorted := List.pairwise_mergeSort htrans htotal ((name.map Char.toNat).filter (128 ≤ ·))
  simpa using hsorted

/-- The characters of ASCII come first, and the digits after the last hyphen say the others. -/
theorem encode_eq (name : List Char) : ∃ digits, encode name =
      (if (name.filter (·.toNat < 128)).isEmpty then []
        else name.filter (·.toNat < 128) ++ ['-']) ++ digits ∧
    (∀ c ∈ digits, IsDigit c) ∧
      Reads ⟨128, 0, 72, name.filter (·.toNat < 128)⟩ digits name := by
  generalize hplain : name.filter (·.toNat < 128) = plain
  have hstart : Between name plain.length 128
      ⟨if plain.isEmpty then [] else plain ++ ['-'], 0, 72, plain.length⟩ ⟨128, 0, 72, plain⟩ :=
    ⟨hplain.symm, rfl, rfl, Nat.le_refl _, by simp, Nat.le_refl _, by simp⟩
  obtain ⟨r', ⟨digits, hwritten, hdigits, hreads⟩, hname⟩ := rounds_write hstart
    (pairwise_targets name) (fun t ht => (mem_targets.mp ht).1) (by
      intro c hc
      by_cases hsmall : c.toNat < 128
      · exact .inl hsmall
      · exact .inr (mem_targets.mpr ⟨by omega, c, hc, rfl⟩))
  refine ⟨digits, ?_, hdigits, ?_⟩
  · rw [← hwritten, encode, hplain]
    rfl
  · have hend := hreads [] name (hname ▸ reads_nil r')
    rwa [List.append_nil] at hend

theorem mem_encode (hc : c ∈ encode name) :
    c ∈ name ∧ c.toNat < 128 ∨ c = '-' ∨ IsDigit c := by
  obtain ⟨digits, hencode, hdigits, -⟩ := encode_eq name
  rw [hencode] at hc
  rcases List.mem_append.mp hc with hc | hc
  · split at hc
    · cases hc
    · rcases List.mem_append.mp hc with hc | hc
      · exact .inl (by simpa using hc)
      · exact .inr (.inl (List.mem_singleton.mp hc))
  · exact .inr (.inr (hdigits c hc))

/-- Every name is read as it was written. -/
theorem decode?_encode (name : List Char) : decode? (encode name) = some name := by
  obtain ⟨digits, hencode, hdigits, hreads⟩ := encode_eq name
  have hnone : ∀ c ∈ digits.reverse, (decide (c ≠ '-')) = true := fun c hc =>
    decide_eq_true (hdigits c (List.mem_reverse.mp hc)).plain.2.1
  obtain ⟨before, hbefore, hhyphen, hlength⟩ : ∃ before, encode name = before ++ digits ∧
      before.reverse.takeWhile (· ≠ '-') = [] ∧
        before.take (before.length - 1) = name.filter (·.toNat < 128) := by
    refine ⟨_, hencode, ?_, ?_⟩ <;> split
    · rfl
    · simp
    · next hempty => simpa using hempty
    · simp
  have htail : ((encode name).reverse.takeWhile (· ≠ '-')).reverse = digits := by
    rw [hbefore, List.reverse_append, List.takeWhile_append_of_pos hnone, hhyphen, List.append_nil,
      List.reverse_reverse]
  have hhead : (encode name).take ((encode name).length - digits.length - 1) =
      name.filter (·.toNat < 128) := by
    rw [hbefore, List.length_append, Nat.add_sub_cancel, List.take_append_of_le_length (by omega),
      hlength]
  unfold decode?
  simp only [htail, hhead]
  exact hreads _ (Nat.le_refl _)

end TickHost.Url.Punycode
