import TickHost.Proofs.Departures
import TickHost.Proofs.Fetches

/-!
Where hosts have their source texts and the labels of these from. Builders and accepted requests set
the label at once. The text comes with the request or, from a fetch that was kept, in a later step,
and is then reported under the label of the latest request, whichever that is by then. So text and
label may belong to two requests. Of a run that goes on only the label is safe: requests are refused
meanwhile, but a fetch that was kept before still supplies its text.
-/

namespace TickHost

open World Machine

/-- The host gets its label in this step. -/
def Labels (σ : Nat → Machine) (key n : Nat) (label : String) : Prop :=
  Brings σ (fun w t => t.label? w key) n label

/-- The host gets its source text in this step. -/
def Supplies (σ : Nat → Machine) (key n : Nat) (text : String) : Prop :=
  Brings σ (fun w t => t.text? w key) n text

/-- The step of the request that is answered in this step: for a fetch that was kept, the step since
which it was. -/
def requested (σ : Nat → Machine) (n : Nat) : Nat :=
  (((σ n).agenda.head?.bind Task.takes?).bind fun index => (dates σ n)[index]?).getD n

/-- A fetch of a source text for the host has not been answered yet. -/
def Fetching (σ : Nat → Machine) (key n : Nat) : Prop :=
  ∃ f ∈ (σ n).world.fetches, f.loads key = true

instance (m : Machine) (key n : Nat) (label : String) : Decidable (Labels m.trace key n label) :=
  inferInstanceAs (Decidable (Brings ..))

instance (m : Machine) (key n : Nat) (text : String) : Decidable (Supplies m.trace key n text) :=
  inferInstanceAs (Decidable (Brings ..))

section Brings

variable {α : Type} {kind : World → Task → Option α}

/-- In this step a value changes only to what the task brings. -/
def Follows (σ : Nat → Machine) (kind : World → Task → Option α) (value : Nat → α) (n : Nat) :
    Prop :=
  ((∀ t rest, ¬ Executes σ n t rest) ∧ value (n + 1) = value n) ∨
    ∃ t rest, Executes σ n t rest ∧ value (n + 1) = (kind (σ n).world t).getD (value n)

variable {σ : Nat → Machine} {value : Nat → α} {b n : Nat}

theorem Follows.cases (h : Follows σ kind value n) :
    (value (n + 1) = value n ∧ ∀ v, ¬ Brings σ kind n v) ∨ Brings σ kind n (value (n + 1)) := by
  rcases h with ⟨hnothing, hsame⟩ | ⟨t, rest, hexec, hvalue⟩
  · exact .inl ⟨hsame, fun _ ⟨t, rest, hexec, _⟩ => hnothing t rest hexec⟩
  · rw [hvalue]
    cases hkind : kind (σ n).world t with
    | none =>
        refine .inl ⟨rfl, ?_⟩
        rintro v ⟨t', rest', hexec', hbrings⟩
        rw [← (hexec.unique hexec').1, hkind] at hbrings
        cases hbrings
    | some v => exact .inr ⟨t, rest, hexec, hkind⟩

/-- A value is what was brought last, or what it was if nothing was. -/
theorem Follows.last (hbn : b ≤ n) (hfollows : ∀ i, b ≤ i → Follows σ kind value i) :
    (value n = value b ∧ ∀ i v, b ≤ i → i < n → ¬ Brings σ kind i v) ∨
      ∃ i, b ≤ i ∧ i < n ∧ Brings σ kind i (value n) ∧
        ∀ k v, i < k → k < n → ¬ Brings σ kind k v := by
  induction hbn with
  | refl => exact .inl ⟨rfl, fun i _ hbi hib => absurd hib (Nat.not_lt.mpr hbi)⟩
  | @step n hbn ih =>
      rcases (hfollows n hbn).cases with ⟨hsame, hnone⟩ | hbrings
      · have hquiet : ∀ {c : Nat}, (∀ k v, c ≤ k → k < n → ¬ Brings σ kind k v) →
            ∀ k v, c ≤ k → k < n + 1 → ¬ Brings σ kind k v := by
          intro c hbefore k v hck hkn
          rcases Nat.lt_or_eq_of_le (Nat.le_of_lt_succ hkn) with hlt | rfl
          · exact hbefore k v hck hlt
          · exact hnone v
        rw [hsame]
        rcases ih with ⟨hkept, hbefore⟩ | ⟨i, hbi, hin, hbrings, hbefore⟩
        · exact .inl ⟨hkept, hquiet hbefore⟩
        · exact .inr ⟨i, hbi, Nat.lt_succ_of_lt hin, hbrings, hquiet hbefore⟩
      · exact .inr ⟨n, hbn, Nat.lt_succ_self n, hbrings, fun k v hnk hkn => by omega⟩

end Brings

/-- A host that is built has the text and the label of its builder. -/
theorem World.build_script {w : World} (hlinked : w.Linked) (plan : HostPlan) (api : List Action)
    (hbuilt : (w.build plan api).1.Has w.hosts.fresh) :
    ((w.build plan api).1.host w.hosts.fresh).script = ⟨plan.contents, plan.origin⟩ := by
  obtain ⟨entered, id, bus, hstart, hkeeps⟩ := build_starts hlinked plan api hbuilt
  have hkept : entered.Keeps (.script w.hosts.fresh) (w.build plan api).1 :=
    hkeeps _ nofun fun _ _ => nofun
  exact Eq.trans hkept (congrArg Host.script hstart)

namespace Task

variable {w : World} {key : Nat} {t : Task}

/-- No label comes to a host that runs. -/
theorem idle_of_label (hlinked : w.Linked) {label : String} (h : t.label? w key = some label) :
    (w.host key).running = false := by
  unfold label? at h
  split at h
  · split at h
    · rename_i hfresh
      subst hfresh
      rw [World.host, Store.get_of_not_mem _ _ hlinked.fresh]
      rfl
    · cases h
  · split at h
    · rename_i howned
      exact howned.2
    · cases h
  · cases h

theorem label_of_loads (h : t.loads w key = true) : ∃ label, t.label? w key = some label := by
  unfold loads at h
  split at h
  · simp only [label?, if_pos (of_decide_eq_true h)]
    exact ⟨_, rfl⟩
  · cases h

/-- A text comes with its label, or it is the answer to an earlier request. -/
theorem text_cases {text : String} (h : t.text? w key = some text) :
    (t.takes? = none ∧ ∃ label, t.label? w key = some label) ∨
      ∃ index f, t.takes? = some index ∧ w.fetches[index]? = some f ∧ f.loads key = true := by
  unfold text? at h
  split at h
  · split at h
    · rename_i plan _ _ hfresh
      exact .inl ⟨rfl, plan.origin, if_pos hfresh⟩
    · cases h
  · split at h
    · rename_i deed _ howned
      refine .inl ⟨rfl, ?_⟩
      simp only [label?, if_pos howned]
      cases deed with
      | setContents contents origin => exact ⟨origin, rfl⟩
      | loadUrl reference => exact ⟨_, rfl⟩
      | _ => cases h
    · cases h
  · rename_i index _
    obtain ⟨f, hfound, h⟩ := Option.bind_eq_some_iff.mp h
    split at h
    · rename_i hloads
      exact .inr ⟨index, f, rfl, hfound, hloads⟩
    · cases h
  · cases h

end Task

namespace Behavior

variable {σ : Nat → Machine} (hσ : Behavior σ) {key n : Nat}

include hσ

/-- In one step, that in which it is built included, a host gets the label and the text that the
task has for it, and keeps those that it had otherwise. -/
theorem script_follows (hkey : (σ (n + 1)).world.Has key) :
    Follows σ (fun w t => t.label? w key) (fun i => ((σ i).world.host key).script.origin) n ∧
      Follows σ (fun w t => t.text? w key) (fun i => ((σ i).world.host key).script.contents) n := by
  have hlinked := (hσ.sound n).linked
  by_cases hexecutes : ∃ t rest, Executes σ n t rest
  · have hscript : ∃ t rest, Executes σ n t rest ∧ ((σ (n + 1)).world.host key).script =
        ⟨(t.text? (σ n).world key).getD ((σ n).world.host key).script.contents,
          (t.label? (σ n).world key).getD ((σ n).world.host key).script.origin⟩ := by
      by_cases hold : (σ n).world.Has key
      · obtain ⟨t, rest, hexec⟩ := hexecutes
        refine ⟨t, rest, hexec, ?_⟩
        rw [world_after hexec]
        exact Task.react_script hlinked hold t
      · obtain ⟨scope, plan, api, actions, rest, hexec, rfl⟩ := hσ.built hold hkey
        refine ⟨_, rest, hexec, ?_⟩
        rw [world_after hexec] at hkey ⊢
        simp only [Task.text?, Task.label?, if_true, Option.getD_some]
        exact build_script hlinked plan api hkey
    obtain ⟨t, rest, hexec, hscript⟩ := hscript
    exact ⟨.inr ⟨t, rest, hexec, congrArg Script.origin hscript⟩,
      .inr ⟨t, rest, hexec, congrArg Script.contents hscript⟩⟩
  · have hnothing : ∀ t rest, ¬ Executes σ n t rest :=
      fun t rest hexec => hexecutes ⟨t, rest, hexec⟩
    have hkept : ((σ (n + 1)).world.host key).script = ((σ n).world.host key).script := by
      rcases hσ.cases n with hkeeps | hexecutes'
      · exact hkeeps (.script key)
      · exact absurd hexecutes' hexecutes
    exact ⟨.inl ⟨hnothing, congrArg Script.origin hkept⟩,
      .inl ⟨hnothing, congrArg Script.contents hkept⟩⟩

/-- A host has the label that it got last. -/
theorem last_label {b : Nat} (hbn : b ≤ n) (hhas : ∀ i, b ≤ i → (σ (i + 1)).world.Has key) :
    (((σ n).world.host key).script.origin = ((σ b).world.host key).script.origin ∧
        ∀ i label, b ≤ i → i < n → ¬ Labels σ key i label) ∨
      ∃ i, b ≤ i ∧ i < n ∧ Labels σ key i ((σ n).world.host key).script.origin ∧
        ∀ k label, i < k → k < n → ¬ Labels σ key k label :=
  Follows.last hbn fun i hbi => (hσ.script_follows (hhas i hbi)).1

/-- A host has the text that it got last. -/
theorem last_text {b : Nat} (hbn : b ≤ n) (hhas : ∀ i, b ≤ i → (σ (i + 1)).world.Has key) :
    (((σ n).world.host key).script.contents = ((σ b).world.host key).script.contents ∧
        ∀ i text, b ≤ i → i < n → ¬ Supplies σ key i text) ∨
      ∃ i, b ≤ i ∧ i < n ∧ Supplies σ key i ((σ n).world.host key).script.contents ∧
        ∀ k text, i < k → k < n → ¬ Supplies σ key k text :=
  Follows.last hbn fun i hbi => (hσ.script_follows (hhas i hbi)).2

/-- Only requests label, and a host that runs does not accept any. -/
theorem idle_of_labels {label : String} (hlabels : Labels σ key n label) :
    ((σ n).world.host key).running = false := by
  obtain ⟨t, rest, -, hlabel⟩ := hlabels
  exact Task.idle_of_label (hσ.sound n).linked hlabel

/-- The text that arrives in a step was asked for in the same step, or a fetch has been kept for it
since then. -/
theorem request_cases {text : String} (hsupplies : Supplies σ key n text) :
    (∃ label, Labels σ key (requested σ n) label) ∧
      (requested σ n = n ∨ ∃ index f, f.loads key = true ∧
        KeptAt σ (requested σ n) n index f) := by
  obtain ⟨t, rest, hexec, htext⟩ := hsupplies
  have hrequested : requested σ n =
      (t.takes?.bind fun index => (dates σ n)[index]?).getD n := by
    rw [requested, hexec.agenda]
    rfl
  rcases Task.text_cases htext with ⟨hnone, label, hlabel⟩ | ⟨index, f, htakes, hfetch, hloads⟩
  · rw [hrequested, hnone]
    exact ⟨⟨label, t, rest, hexec, hlabel⟩, .inl rfl⟩
  · obtain ⟨a, hkept⟩ := hσ.keptAt hfetch
    have ha : requested σ n = a := by
      rw [hrequested, htakes, Option.bind_some, hkept.date]
      rfl
    obtain ⟨-, t', rest', hexec', hloads'⟩ := hσ.requested_of_kept hkept hloads
    obtain ⟨label, hlabel⟩ := Task.label_of_loads hloads'
    rw [ha]
    exact ⟨⟨label, t', rest', hexec', hlabel⟩, .inr ⟨index, f, hloads, hkept⟩⟩

theorem requested_le {text : String} (hsupplies : Supplies σ key n text) : requested σ n ≤ n := by
  obtain ⟨-, hnow | ⟨index, f, hloads, hkept⟩⟩ := hσ.request_cases hsupplies
  · exact Nat.le_of_eq hnow
  · exact Nat.le_of_lt (hσ.requested_of_kept hkept hloads).1

/-- The fetch for a text that arrives later has been awaited in between. -/
theorem fetching_since {i : Nat} {text : String} (hsupplies : Supplies σ key n text)
    (hlate : requested σ n < i) (hin : i ≤ n) : Fetching σ key i := by
  obtain ⟨-, hnow | ⟨index, f, hloads, hkept⟩⟩ := hσ.request_cases hsupplies
  · omega
  · obtain ⟨place, hearlier⟩ := hσ.kept_since hkept hlate hin
    exact ⟨f, List.mem_of_getElem? hearlier.fetch, hloads⟩

/-- A host got its text and its label from its builder at first. -/
theorem first_written (hkey : (σ n).world.Has key) : ∃ b, b < n ∧
    (∀ i, b ≤ i → (σ (i + 1)).world.Has key) ∧
    (∃ label, Labels σ key b label) ∧ ∃ text, Supplies σ key b text := by
  obtain ⟨b, hbn, hnew, hafter⟩ := hσ.born hkey
  refine ⟨b, hbn, fun i hbi => hσ.has_later (Nat.succ_le_succ hbi) hafter, ?_⟩
  obtain ⟨scope, plan, api, actions, rest, hexec, rfl⟩ := hσ.built hnew hafter
  exact ⟨⟨plan.origin, _, rest, hexec, if_pos rfl⟩, plan.contents, _, rest, hexec, if_pos rfl⟩

end Behavior

/-- Where a host has its label and its source text from: the label from a request in the step
`asked`, and the text from the step `arrived`. -/
structure Sourced (σ : Nat → Machine) (key n asked arrived : Nat) : Prop where
  before : asked < n ∧ arrived < n
  /-- The label is that of the latest request that was accepted, or of the builder. -/
  label : Labels σ key asked ((σ n).world.host key).script.origin
  latest : ∀ k label, asked < k → k < n → ¬ Labels σ key k label
  /-- The text is the last one that has arrived. -/
  text : Supplies σ key arrived ((σ n).world.host key).script.contents
  last : ∀ k text, arrived < k → k < n → ¬ Supplies σ key k text
  /-- It was asked for by an accepted request, too, and by none after the latest. -/
  request : (∃ label, Labels σ key (requested σ arrived) label) ∧
    requested σ arrived ≤ asked ∧ requested σ arrived ≤ arrived
  /-- Both belong to one request exactly if the latest one has got its text, and no text that an
  older one asked for has come after that. -/
  same : requested σ arrived = asked ↔ ∃ i text, i < n ∧ Supplies σ key i text ∧
    requested σ i = asked ∧ ∀ k text', i < k → k < n → Supplies σ key k text' →
      ¬ requested σ k < asked
  /-- What a request asked for that had no fetch to wait for when it was accepted does not give way
  to what older ones asked for. -/
  settled : ∀ i text, i < n → Supplies σ key i text → ¬ Fetching σ key (requested σ i) →
    requested σ i ≤ requested σ arrived

/-- The label of a source text is that of the latest request, and the text is the last to arrive. -/
theorem source_of_requests {σ : Nat → Machine} (hσ : Behavior σ) {key n : Nat}
    (hkey : (σ n).world.Has key) : ∃ asked arrived, Sourced σ key n asked arrived := by
  obtain ⟨b, hbn, hhas, ⟨label, hlabels⟩, first, hsupplies⟩ := hσ.first_written hkey
  obtain ⟨asked, -, han, hlabel, hlatest⟩ := (hσ.last_label (Nat.le_of_lt hbn) hhas).resolve_left
    fun ⟨_, hnone⟩ => hnone b label (Nat.le_refl b) hbn hlabels
  obtain ⟨arrived, -, hin, htext, hlast⟩ := (hσ.last_text (Nat.le_of_lt hbn) hhas).resolve_left
    fun ⟨_, hnone⟩ => hnone b first (Nat.le_refl b) hbn hsupplies
  obtain ⟨label', hlabel'⟩ := (hσ.request_cases htext).1
  have hle := hσ.requested_le htext
  have hnotlater : requested σ arrived ≤ asked := by
    apply Nat.le_of_not_lt
    intro hlater
    exact hlatest _ label' hlater (Nat.lt_of_le_of_lt hle hin) hlabel'
  have hnone_after : ∀ {i text}, i < n → Supplies σ key i text → i ≤ arrived := by
    intro i text hi hsupplies'
    apply Nat.le_of_not_lt
    intro hafter
    exact hlast i text hafter hi hsupplies'
  refine ⟨asked, arrived, ⟨han, hin⟩, hlabel, hlatest, htext, hlast,
    ⟨⟨label', hlabel'⟩, hnotlater, hle⟩, ⟨fun hsame => ?_, ?_⟩, ?_⟩
  · exact ⟨arrived, _, hin, htext, hsame, fun k text' hik hkn h => absurd h (hlast k text' hik hkn)⟩
  · rintro ⟨i, text, hi, hsupplies', hasked, hyounger⟩
    rcases Nat.lt_or_eq_of_le (hnone_after hi hsupplies') with hlt | rfl
    · have hnotolder := hyounger arrived _ hlt hin htext
      omega
    · exact hasked
  · intro i text hi hsupplies' hfree
    apply Nat.le_of_not_lt
    intro hyounger
    apply hfree
    apply hσ.fetching_since htext hyounger
    exact Nat.le_trans (hσ.requested_le hsupplies') (hnone_after hi hsupplies')

/-- Two texts are loaded, and the first one is answered last. -/
def Machine.swapped : Machine :=
  .start (.start default [("http://x/a.js", "A"), ("http://x/b.js", "B")] [] [] default)
    [.build ⟨"h", "body", "h.js", none, .standard, "", none, some ⟨false, false, false, true⟩,
        false, none, false, 1⟩ [],
      .onHost (some "h") (.loadUrl "http://x/a.js"), .onHost (some "h") (.loadUrl "http://x/b.js"),
      .onWorld (.complete 1), .onWorld (.complete 0)]

/-- The label is that of the second request and the text that of the first one. -/
theorem swapped_source : (swapped.trace 6).world.Has 0 ∧
    ∃ asked arrived, Sourced swapped.trace 0 6 asked arrived ∧
      requested swapped.trace arrived < asked := by
  have hkey : (swapped.trace 6).world.Has 0 := by decide +kernel
  obtain ⟨asked, arrived, hsourced⟩ := source_of_requests (trace_behavior ..) hkey
  refine ⟨hkey, asked, arrived, hsourced, ?_⟩
  have hlabels : ∀ a < 6, Labels swapped.trace 0 a ((swapped.trace 6).world.host 0).script.origin →
      a = 2 := by decide +kernel
  have htexts : ∀ i < 6, Supplies swapped.trace 0 i
      ((swapped.trace 6).world.host 0).script.contents → requested swapped.trace i = 1 := by
    decide +kernel
  rw [hlabels asked hsourced.before.1 hsourced.label,
    htexts arrived hsourced.before.2 hsourced.text]
  decide

theorem not_always_one_request : ¬ ∀ σ, Behavior σ → ∀ key n, (σ n).world.Has key →
    (σ n).world.fetches = [] → ∃ i label text, i < n ∧ Labels σ key (requested σ i) label ∧
      Supplies σ key i text ∧ ((σ n).world.host key).script = ⟨text, label⟩ := by
  intro hone
  have hnothing : (swapped.trace 6).world.fetches = [] :=
    List.eq_nil_of_length_eq_zero (by decide +kernel)
  obtain ⟨i, label, text, hi, hlabels, hsupplies, hscript⟩ :=
    hone swapped.trace (trace_behavior ..) 0 6 (by decide +kernel) hnothing
  have hvalue : ((swapped.trace 6).world.host 0).script = ⟨"A", "http://x/b.js"⟩ := by
    decide +kernel
  rw [hvalue] at hscript
  cases hscript
  have hnever : ∀ i < 6, Supplies swapped.trace 0 i "A" →
      ¬ Labels swapped.trace 0 (requested swapped.trace i) "http://x/b.js" := by decide +kernel
  exact hnever i hi hsupplies hlabels

/-- What becomes of the source text of a host while a run of it goes on that began in step `b`. -/
structure Held (σ : Nat → Machine) (key b n : Nat) : Prop where
  label : ((σ n).world.host key).script.origin = ((σ b).world.host key).script.origin
  /-- The text is that with which the run began, or the last one that has arrived since. -/
  text : (((σ n).world.host key).script.contents = ((σ b).world.host key).script.contents ∧
      ∀ i text, b ≤ i → i < n → ¬ Supplies σ key i text) ∨
    ∃ i, b ≤ i ∧ i < n ∧ Supplies σ key i ((σ n).world.host key).script.contents ∧
      ∀ k text, i < k → k < n → ¬ Supplies σ key k text
  /-- Nothing arrives that was not asked for before the run. -/
  early : ∀ i text, b ≤ i → i < n → Supplies σ key i text → requested σ i < b
  /-- A run that begins when there is nothing to wait for keeps its text and label. -/
  settled : ¬ Fetching σ key b →
    ((σ n).world.host key).script = ((σ b).world.host key).script
  /-- Every request is refused. -/
  refused : ∀ k scope named deed actions rest label, b < k → k < n →
    Executes σ k (.perform scope (.onHost named deed :: actions)) rest →
    (σ k).world.owned? scope named = some key → deed.label? = some label →
    (σ (k + 1)).world = (σ k).world.note (.answered deed.name (.refused .alreadyRunning))

/-- While a host runs its label stays, and its text gives way only to what was asked for before. -/
theorem source_during_run {σ : Nat → Machine} (hσ : Behavior σ) {key b n : Nat}
    (hbegins : Begins σ key b) (hbn : b ≤ n)
    (hruns : ∀ i, b < i → i ≤ n → ((σ i).world.host key).running = true) : Held σ key b n := by
  obtain ⟨below, hbegin⟩ := hbegins
  have hkey : (σ b).world.Has key := (hσ.sound b).head hbegin.agenda key rfl
  have hhas : ∀ i, b ≤ i → (σ (i + 1)).world.Has key :=
    fun i hbi => hσ.has_later (Nat.le_succ_of_le hbi) hkey
  have hnolabel : ∀ k label, b ≤ k → k < n → ¬ Labels σ key k label := by
    intro k label hbk hkn hlabels
    rcases Nat.lt_or_eq_of_le hbk with hlt | rfl
    · have hidle := hσ.idle_of_labels hlabels
      rw [hruns k hlt (Nat.le_of_lt hkn)] at hidle
      cases hidle
    · obtain ⟨t, rest, hexec, hlabel⟩ := hlabels
      obtain rfl := (hbegin.unique hexec).1
      cases hlabel
  have hearly : ∀ i text, b ≤ i → i < n → Supplies σ key i text → requested σ i < b := by
    intro i text hbi hin hsupplies
    obtain ⟨label, hlabels⟩ := (hσ.request_cases hsupplies).1
    apply Nat.lt_of_not_le
    intro hlate
    exact hnolabel _ label hlate (Nat.lt_of_le_of_lt (hσ.requested_le hsupplies) hin) hlabels
  have hlabel : ((σ n).world.host key).script.origin = ((σ b).world.host key).script.origin := by
    rcases hσ.last_label hbn hhas with ⟨hsame, -⟩ | ⟨k, hbk, hkn, hlabels, -⟩
    · exact hsame
    · exact absurd hlabels (hnolabel k _ hbk hkn)
  refine ⟨hlabel, hσ.last_text hbn hhas, hearly, fun hfree => ?_, ?_⟩
  · rcases hσ.last_text hbn hhas with ⟨hsame, -⟩ | ⟨i, hbi, hin, hsupplies, -⟩
    · have hscript : Script.mk _ _ = Script.mk _ _ := congr (congrArg Script.mk hsame) hlabel
      exact hscript
    · exact absurd (hσ.fetching_since hsupplies (hearly i _ hbi hin hsupplies) hbi) hfree
  · intro k scope named deed actions rest label hbk hkn hexec howned hlabel
    have hrunning := hruns k hbk (Nat.le_of_lt hkn)
    rw [Behavior.world_after hexec, Task.react_onHost, start_onHost howned,
      startHostDeed_of_label _ key hlabel, doHostDeed_refused _ key hrunning hlabel]

/-- A text is loaded, and its answer comes when the host runs already. -/
def Machine.overtaken : Machine :=
  .start (.start default [("http://x/a.js", "A")] [("body", [.onWorld (.complete 0)])] [] default)
    [.build ⟨"h", "body", "h.js", none, .standard, "", none, some ⟨false, false, false, true⟩,
        false, none, false, 1⟩ [],
      .onHost (some "h") (.loadUrl "http://x/a.js"), .onHost (some "h") .run]

/-- The run goes on under its label, and with another text. -/
theorem overtaken_held : Begins overtaken.trace 0 6 ∧ Held overtaken.trace 0 6 16 ∧
    ((overtaken.trace 6).world.host 0).script = ⟨"body", "http://x/a.js"⟩ ∧
    ((overtaken.trace 16).world.host 0).script = ⟨"A", "http://x/a.js"⟩ := by
  have hbegins : Begins overtaken.trace 0 6 := by decide +kernel
  have hruns : ∀ i ≤ 16, 6 < i → ((overtaken.trace i).world.host 0).running = true := by
    decide +kernel
  exact ⟨hbegins, source_during_run (trace_behavior ..) hbegins (by decide)
    fun i hbi hin => hruns i hin hbi, by decide +kernel, by decide +kernel⟩

theorem not_always_frozen : ¬ ∀ σ, Behavior σ → ∀ key b n, Begins σ key b → b ≤ n →
    (∀ i, b < i → i ≤ n → ((σ i).world.host key).running = true) →
    ((σ n).world.host key).script = ((σ b).world.host key).script := by
  intro hfrozen
  have hruns : ∀ i ≤ 16, 6 < i → ((overtaken.trace i).world.host 0).running = true := by
    decide +kernel
  have hfalse := hfrozen overtaken.trace (trace_behavior ..) 0 6 16 (by decide +kernel)
    (by decide) fun i hbi hin => hruns i hin hbi
  have hchanged : ((overtaken.trace 16).world.host 0).script ≠
      ((overtaken.trace 6).world.host 0).script := by decide +kernel
  exact hchanged hfalse

end TickHost
