import TickHost.Proofs.Hosts
import TickHost.Url.Parser

/-!
What stands between the slashes of a URL and its path is read again as it was. The user, the
password, the host and the port keep apart, since none of them holds the mark that ends it: users
and passwords have their colons and signs escaped, and a host has colons only between brackets.
-/

namespace TickHost.Url

open Utf8 Text Decimal

/-- What may stand in an authority: none of the characters that end it. -/
def inAuthority (c : Char) : Bool :=
  isPlain c && !" /\\?#".toList.contains c

/-! ### Hosts and ports -/

theorem splitPort_plain {host : List Char} (h : ∀ c ∈ host, c ≠ ':' ∧ c ≠ '[') (rest : List Char) :
    splitPort false (host ++ rest) =
      (host ++ (splitPort false rest).1, (splitPort false rest).2) := by
  induction host with
  | nil => rfl
  | cons c host ih =>
      obtain ⟨hcolon, hbracket⟩ := h c List.mem_cons_self
      have hrest := ih fun c hc => h c (List.mem_cons_of_mem _ hc)
      have hopen : (c == '[' || (false && c != ']')) = false := by simpa using hbracket
      rw [List.cons_append, splitPort, if_neg (fun h => hcolon h.1), hopen, hrest]
      rfl

/-- Colons between brackets are passed over. -/
theorem splitPort_brackets {body : List Char} (h : ']' ∉ body) (rest : List Char) :
    splitPort true (body ++ ']' :: rest) =
      (body ++ ']' :: (splitPort false rest).1, (splitPort false rest).2) := by
  induction body with
  | nil => rfl
  | cons c body ih =>
      rw [List.mem_cons, not_or] at h
      have hopen : (c == '[' || (true && c != ']')) = true := by
        simpa using .inr (Ne.symm h.1)
      rw [List.cons_append, splitPort, if_neg (fun h => absurd h.2 (by decide)), hopen, ih h.2]
      rfl

theorem splitPort_host {host : String} (h : IsHost host) (rest : List Char) :
    splitPort false (host.toList ++ rest) =
      (host.toList ++ (splitPort false rest).1, (splitPort false rest).2) := by
  rcases h with ⟨pieces, -, rfl⟩ | hplain
  · have hbody : ']' ∉ showAddress6 pieces := by
      intro hc
      rcases mem_showAddress6 hc with h | ⟨d, hd, h⟩
      · cases h
      · have hall : ∀ d < 16, ']' ≠ Nat.digitChar d := by decide
        exact hall d hd h
    rw [toList_renderAddress6, List.cons_append, splitPort,
      if_neg (fun h => absurd h.1 (by decide)), List.append_assoc, List.singleton_append]
    simp only [beq_self_eq_true, Bool.true_or, splitPort_brackets hbody rest]
    simp
  · refine splitPort_plain (fun c hc => ⟨?_, ?_⟩) rest <;> rintro rfl
    · exact absurd (hplain _ hc).2 (by decide)
    · exact absurd (hplain _ hc).2 (by decide)

theorem inAuthority_host {host : String} (h : IsHost host) :
    ∀ c ∈ host.toList, inAuthority c = true ∧ c ≠ '@' := by
  intro c hc
  rcases h with ⟨pieces, -, rfl⟩ | hplain
  · rw [toList_renderAddress6] at hc
    have hmarks : ∀ c ∈ ['[', ']', ':'], inAuthority c = true ∧ c ≠ '@' :=
      forall_of_all (by decide)
    have hdigits : ∀ d < 16, inAuthority (Nat.digitChar d) = true ∧ Nat.digitChar d ≠ '@' := by
      decide
    rcases List.mem_cons.mp hc with rfl | hc
    · exact hmarks _ (by simp)
    rcases List.mem_append.mp hc with hc | hc
    · rcases mem_showAddress6 hc with rfl | ⟨d, hd, rfl⟩
      · exact hmarks _ (by simp)
      · exact hdigits d hd
    · obtain rfl := List.mem_singleton.mp hc
      exact hmarks _ (by simp)
  · obtain ⟨hplain, hallowed⟩ := hplain c hc
    have hall : " /\\?#@".toList.all isForbiddenInHost = true := by decide
    have hne : ∀ d ∈ " /\\?#@".toList, c ≠ d := fun d hd heq =>
      Bool.false_ne_true (hallowed.symm.trans (heq ▸ List.all_eq_true.mp hall d hd))
    refine ⟨?_, hne '@' (by decide)⟩
    rw [inAuthority, hplain, Bool.true_and, Bool.not_eq_true', Bool.eq_false_iff]
    intro hmem
    exact hne c (List.mem_append_left ['@'] (List.contains_iff_mem.mp hmem)) rfl

theorem port?_cases {scheme : String} {digits : List Char} {port : Option Nat}
    (h : port? scheme digits = some port) :
    ∀ n, port = some n → n ≤ 65535 ∧ usualPort? scheme ≠ some n := by
  unfold port? at h
  simp only at h
  split at h
  · cases h
  next hsmall =>
  split at h
  · cases h
    simp
  next husual =>
  cases h
  rintro n ⟨rfl⟩
  simp only [Bool.or_eq_true, decide_eq_true_eq, not_or] at hsmall husual
  exact ⟨by omega, husual.2⟩

theorem port?_toDigits {scheme : String} {n : Nat} (hn : n ≤ 65535)
    (husual : usualPort? scheme ≠ some n) : port? scheme (Nat.toDigits 10 n) = some (some n) := by
  have hempty : (Nat.toDigits 10 n).isEmpty = false := by simp [Nat.toDigits_ne_nil]
  have hsmall : ¬65535 < n := by omega
  simp [port?, digitsValue_toDigits, all_isDigit_toDigits, hempty, hsmall, husual]

/-! ### Authorities -/

/-- The user, if there is one, and the place. -/
def readUser (text : List Char) : Option (List Char) × List Char :=
  match splitLast? '@' text with
  | some (user, place) => (some user, place)
  | none => (none, text)

/-- The name and the password of a user. -/
def readSecret (user : List Char) : List Char × List Char :=
  match splitFirst? ':' user with
  | some (username, password) => (username, password)
  | none => (user, [])

/-- Reading an authority, part by part. -/
theorem authority?_eq (scheme : String) (kind : SchemeKind) (text : List Char) :
    authority? scheme kind text =
      let user := (readUser text).1
      let place := splitPort false (readUser text).2
      let names := readSecret (user.getD [])
      if place.1.isEmpty && (kind != .other || user.isSome || place.2.isSome) then none
      else (if kind = .other then otherHost? place.1 else specialHost? place.1).bind fun host =>
        (port? scheme (place.2.getD [])).bind fun port =>
          some ⟨String.ofList (percentEncode keptInUserInfo names.1),
            String.ofList (percentEncode keptInUserInfo names.2), host, port⟩ := by
  unfold authority? readUser readSecret
  by_cases hkind : kind = .other
  · simp only [hkind, if_true]
    rfl
  · simp only [hkind, if_false]
    rfl

/-- An authority as it stands in a URL of a scheme. -/
structure Authority.Proper (scheme : String) (a : Authority) : Prop where
  username : ∀ c ∈ a.username.toList, keptInUserInfo c = true
  password : ∀ c ∈ a.password.toList, keptInUserInfo c = true
  host : IsHost a.host
  fixed : (if schemeKind scheme = .other then otherHost? a.host.toList
    else specialHost? a.host.toList) = some a.host
  /-- Only a host that is named takes a user, a password or a port. -/
  void : a.host = "" →
    schemeKind scheme = .other ∧ a.username = "" ∧ a.password = "" ∧ a.port = none
  port : ∀ n, a.port = some n → n ≤ 65535 ∧ usualPort? scheme ≠ some n

theorem authority?_proper {scheme : String} {text : List Char} {a : Authority}
    (h : authority? scheme (schemeKind scheme) text = some a) : a.Proper scheme := by
  rw [authority?_eq] at h
  simp only at h
  split at h
  · cases h
  next hnamed =>
  obtain ⟨host, hhost, h⟩ := Option.bind_eq_some_iff.mp h
  obtain ⟨port, hport, h⟩ := Option.bind_eq_some_iff.mp h
  obtain rfl := Option.some.inj h
  have hkept : ∀ (text : List Char) (c : Char),
      c ∈ (String.ofList (percentEncode keptInUserInfo text)).toList → keptInUserInfo c = true := by
    intro text c hc
    rw [String.toList_ofList] at hc
    exact kept_of_mem_percentEncode admits_userInfo hc
  obtain ⟨hfixed, hishost, hvoid⟩ : (if schemeKind scheme = .other then otherHost? host.toList
      else specialHost? host.toList) = some host ∧ IsHost host ∧
        (host = "" → schemeKind scheme = .other ∧
          (splitPort false (readUser text).2).1 = []) := by
    by_cases hkind : schemeKind scheme = .other
    · rw [if_pos hkind] at hhost ⊢
      obtain ⟨hfixed, hishost⟩ := otherHost?_fixed hhost
      exact ⟨hfixed, hishost, fun h => ⟨hkind, otherHost?_void (h ▸ hhost)⟩⟩
    · rw [if_neg hkind] at hhost ⊢
      obtain ⟨hfixed, hishost, hne⟩ := specialHost?_fixed hhost
      exact ⟨hfixed, hishost, fun h => absurd h hne⟩
  refine ⟨hkept _, hkept _, hishost, hfixed, ?_, port?_cases hport⟩
  intro hempty
  obtain ⟨hkind, hplace⟩ := hvoid hempty
  obtain ⟨huser, hportText⟩ : (readUser text).1 = none ∧
      (splitPort false (readUser text).2).2 = none := by
    simpa [hplace, hkind] using hnamed
  rw [hportText] at hport
  have hnone : port? scheme [] = some none := by simp [port?, digitsValue]
  refine ⟨hkind, ?_, ?_, (Option.some.inj (hnone.symm.trans hport)).symm⟩ <;> rw [huser] <;> rfl

/-- The parts of an authority, as they are written. -/
def Authority.userText (a : Authority) : List Char :=
  a.username.toList ++ (if a.password = "" then [] else ':' :: a.password.toList)

def Authority.portText (a : Authority) : List Char :=
  match a.port with
  | some n => ':' :: Nat.toDigits 10 n
  | none => []

theorem Authority.toList_render (a : Authority) : a.render.toList =
    (if a.username = "" ∧ a.password = "" then [] else a.userText ++ ['@']) ++
      (a.host.toList ++ a.portText) := by
  unfold Authority.render portText userText
  simp only [String.toList_append, apply_ite String.toList]
  cases a.port with
  | none => simp
  | some n => simp

section

variable {scheme : String} {a : Authority}

theorem inAuthority_userInfo {c : Char} (hc : keptInUserInfo c = true) :
    inAuthority c = true ∧ c ≠ '@' ∧ c ≠ ':' := by
  have hmarks : " /\\?#".toList.contains c = false := contains_eq_false (by decide) hc
  exact ⟨by rw [inAuthority, admits_userInfo.plain c hc, hmarks]; rfl,
    ne_of_test hc (by decide), ne_of_test hc (by decide)⟩

theorem Authority.inAuthority_portText (a : Authority) :
    ∀ c ∈ a.portText, inAuthority c = true ∧ c ≠ '@' := by
  intro c hc
  unfold portText at hc
  split at hc
  · rcases List.mem_cons.mp hc with rfl | hc
    · decide
    · have hdigit := List.all_eq_true.mp (all_isDigit_toDigits _) c hc
      have hrange : 48 ≤ c.toNat ∧ c.toNat ≤ 57 := Char.isDigit_iff_toNat.mp hdigit
      have hplain : isPlain c = true := by
        simp only [isPlain, Bool.and_eq_true, decide_eq_true_eq]
        omega
      have hmarks : " /\\?#".toList.contains c = false := contains_eq_false (by decide) hdigit
      exact ⟨by rw [inAuthority, hplain, hmarks]; rfl, ne_of_test hdigit (by decide)⟩
  · cases hc

theorem Authority.Proper.inAuthority_userText (h : a.Proper scheme) :
    ∀ c ∈ a.userText, inAuthority c = true ∧ c ≠ '@' := by
  intro c hc
  rcases List.mem_append.mp hc with hc | hc
  · exact ⟨(inAuthority_userInfo (h.username c hc)).1, (inAuthority_userInfo (h.username c hc)).2.1⟩
  · split at hc
    · cases hc
    · rcases List.mem_cons.mp hc with rfl | hc
      · decide
      · exact ⟨(inAuthority_userInfo (h.password c hc)).1,
          (inAuthority_userInfo (h.password c hc)).2.1⟩

theorem Authority.Proper.inAuthority (h : a.Proper scheme) :
    ∀ c ∈ a.render.toList, inAuthority c = true := by
  intro c hc
  rw [Authority.toList_render] at hc
  rcases List.mem_append.mp hc with hc | hc
  · split at hc
    · cases hc
    · rcases List.mem_append.mp hc with hc | hc
      · exact (h.inAuthority_userText c hc).1
      · obtain rfl := List.mem_singleton.mp hc
        decide
  · rcases List.mem_append.mp hc with hc | hc
    · exact (inAuthority_host h.host c hc).1
    · exact (a.inAuthority_portText c hc).1

theorem Authority.Proper.readUser_render (h : a.Proper scheme) : readUser a.render.toList =
    (if a.username = "" ∧ a.password = "" then none else some a.userText,
      a.host.toList ++ a.portText) := by
  have hplace : '@' ∉ a.host.toList ++ a.portText := by
    intro hc
    rcases List.mem_append.mp hc with hc | hc
    · exact (inAuthority_host h.host _ hc).2 rfl
    · exact (a.inAuthority_portText _ hc).2 rfl
  rw [Authority.toList_render, readUser]
  by_cases huser : a.username = "" ∧ a.password = ""
  · rw [if_pos huser, if_pos huser, List.nil_append, splitLast?_eq_none hplace]
  · rw [if_neg huser, if_neg huser, List.append_assoc, List.singleton_append,
      splitLast?_append hplace]

theorem Authority.Proper.readSecret_render (h : a.Proper scheme) :
    readSecret ((if a.username = "" ∧ a.password = "" then none else some a.userText).getD []) =
      (a.username.toList, a.password.toList) := by
  have husername : ':' ∉ a.username.toList := fun hc =>
    (inAuthority_userInfo (h.username _ hc)).2.2 rfl
  split
  · next hempty =>
      rw [hempty.1, hempty.2]
      rfl
  · rw [Option.getD_some, readSecret, Authority.userText]
    by_cases hpassword : a.password = ""
    · rw [if_pos hpassword, List.append_nil, splitFirst?_eq_none husername, hpassword]
      rfl
    · rw [if_neg hpassword, splitFirst?_append husername]

theorem Authority.Proper.splitPort_render (h : a.Proper scheme) :
    splitPort false (a.host.toList ++ a.portText) =
      (a.host.toList, a.port.map (Nat.toDigits 10)) := by
  rw [splitPort_host h.host, Authority.portText]
  cases a.port with
  | none => simp [splitPort]
  | some n => simp [splitPort]

/-- What is written for an authority is read as this authority. -/
theorem authority?_render (h : a.Proper scheme) :
    authority? scheme (schemeKind scheme) a.render.toList = some a := by
  have hport : port? scheme ((a.port.map (Nat.toDigits 10)).getD []) = some a.port := by
    cases hport : a.port with
    | none => simp [port?, digitsValue]
    | some n =>
        obtain ⟨hsmall, husual⟩ := h.port n hport
        exact port?_toDigits hsmall husual
  have hencoded : ∀ text : String, (∀ c ∈ text.toList, keptInUserInfo c = true) →
      String.ofList (percentEncode keptInUserInfo text.toList) = text := fun text hkept => by
    rw [percentEncode_eq_self admits_userInfo hkept, String.ofList_toList]
  rw [authority?_eq, h.readUser_render]
  simp only [h.readSecret_render, h.splitPort_render, h.fixed, hport, Option.bind_some,
    hencoded _ h.username, hencoded _ h.password]
  refine if_neg fun hvoid => ?_
  obtain ⟨hhost, huser⟩ := Bool.and_eq_true_iff.mp hvoid
  obtain ⟨hkind, husername, hpassword, hnone⟩ :=
    h.void (String.toList_inj.mp (List.isEmpty_iff.mp hhost))
  simp [hkind, husername, hpassword, hnone] at huser

end

end TickHost.Url
