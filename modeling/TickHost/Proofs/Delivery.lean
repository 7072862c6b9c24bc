import Mathlib.Data.List.Sort
import TickHost.Proofs.Speech
import TickHost.Session.Bus

/-!
How events are numbered and delivered. Senders that were cloned from each other share one outlet,
which numbers what goes through it and can be cut off; any number of outlets share one bus. What is
published while its outlet is attached stands on the bus, in the order of publication and under the
next number of its outlet, whoever is there to read it. Receivers come and go. Each goes along the
bus from where it stood when the receiver was made, and misses nothing but what it is told it
missed, which is what the bus does not keep any longer.
-/

namespace TickHost.Session

/-- Something that is published through an outlet that is not cut off. -/
structure Publication where
  outlet : Nat
  event : Event
  source : Source
deriving DecidableEq, Repr

/-- What a receiver found when so much had been published. -/
structure Sight where
  size : Nat
  reading : Reading

/-- From one position on, a receiver finds these things on the way to another position. What it gets
stands where it is and is still kept; what it misses is exactly what is kept no longer; and it finds
nothing only where nothing was published yet. -/
def Follows (capacity : Nat) (history : List Envelope) : Nat → List Sight → Nat → Prop
  | p, [], q => p = q
  | p, ⟨size, .got e⟩ :: rest, q =>
      size - capacity ≤ p ∧ p < size ∧ history[p]? = some e ∧
        Follows capacity history (p + 1) rest q
  | p, ⟨size, .lagged n⟩ :: rest, q =>
      0 < n ∧ p + n = size - capacity ∧ Follows capacity history (p + n) rest q
  | p, ⟨size, .empty⟩ :: rest, q => p = size ∧ Follows capacity history p rest q

/-- The positions of what a receiver gets on its way. -/
def spots : Nat → List Sight → List Nat
  | _, [] => []
  | p, ⟨_, .got _⟩ :: rest => p :: spots (p + 1) rest
  | p, ⟨_, .lagged n⟩ :: rest => spots (p + n) rest
  | p, ⟨_, .empty⟩ :: rest => spots p rest

/-- What a receiver gets on its way. -/
def envelopes : List Sight → List Envelope
  | [] => []
  | ⟨_, .got e⟩ :: rest => e :: envelopes rest
  | ⟨_, .lagged _⟩ :: rest => envelopes rest
  | ⟨_, .empty⟩ :: rest => envelopes rest

namespace BusSession

/-- What a step publishes. -/
def publication? (s : BusSession) : BusStep → Option Publication
  | .publish sender event source => do
      let index ← s.senders.get? sender
      let outlet ← s.outlets[index]?
      if outlet.detached then none else some ⟨index, event, source⟩
  | _ => none

def publications : BusSession → List BusStep → List Publication
  | _, [] => []
  | s, action :: rest => (s.publication? action).toList ++ publications (s.step action).2 rest

/-- The session after some steps. -/
def after (s : BusSession) (steps : List BusStep) : BusSession :=
  steps.foldl (fun s action => (s.step action).2) s

/-- What a step tells a receiver. -/
def sights (s : BusSession) (receiver : String) (action : BusStep) : List Sight :=
  let readings : List Reading := match action, (s.step action).1 with
    | .receive name, .reading reading => if name = receiver then [reading] else []
    | .drain name, .drained missed envelopes =>
        if name = receiver then
          (if missed = 0 then [] else [.lagged missed]) ++ envelopes.map .got
        else []
    | _, _ => []
  readings.map fun reading => ⟨s.bus.history.size, reading⟩

/-- More is told to a receiver that is watched. -/
def tell (more : List Sight) (watched : Option (Nat × List Sight)) : Option (Nat × List Sight) :=
  watched.map fun (start, seen) => (start, seen ++ more)

/-- The watch over the receiver of a name during one step. Subscribing under the name anew makes
another receiver. -/
def watchStep (receiver : String) (s : BusSession) (action : BusStep)
    (watched : Option (Nat × List Sight)) : Option (Nat × List Sight) :=
  match action with
  | .subscribe name => if name = receiver then some (s.bus.history.size, []) else watched
  | .unsubscribe name => if name = receiver then none else watched
  | _ => tell (s.sights receiver action) watched

/-- Where the receiver of a name began and what it was told since, if there is one. -/
def watch (receiver : String) : BusSession → List BusStep → Option (Nat × List Sight) →
    Option (Nat × List Sight)
  | _, [], watched => watched
  | s, action :: rest, watched =>
      watch receiver (s.step action).2 rest (watchStep receiver s action watched)

/-- What the receiver of a name was told in a session from its beginning. -/
def watchFrom (receiver : String) (s : BusSession) (steps : List BusStep) :
    Option (Nat × List Sight) :=
  watch receiver s steps (if receiver = "first" then some (0, []) else none)

/-- Whether a sender publishes through an outlet. -/
def reaches (s : BusSession) (sender : String) (index : Nat) : Bool :=
  s.senders.get? sender = some index && index < s.outlets.length

/-- Whether a step cuts an outlet off or attaches it again, through any of its senders. -/
def severs? (s : BusSession) (index : Nat) : BusStep → Option Bool
  | .detach sender => if s.reaches sender index then some true else none
  | .attach sender => if s.reaches sender index then some false else none
  | _ => none

/-- Whether an outlet is cut off by the last step that did either of that to it. -/
def severed (index : Nat) : BusSession → List BusStep → Bool → Bool
  | _, [], cut => cut
  | s, action :: rest, cut =>
      severed index (s.step action).2 rest ((s.severs? index action).getD cut)

/-! ### What is on the bus -/

/-- The envelopes that went through one outlet. -/
def through (log : List Publication) (history : List Envelope) (index : Nat) : List Envelope :=
  ((log.zip history).filter fun (p, _) => p.outlet = index).map Prod.snd

/-- An outlet has sent these envelopes, under its host and numbered from zero. -/
structure Tells (envelopes : List Envelope) (o : Outlet) : Prop where
  sent : o.sent.toList = envelopes
  numbered : o.Numbered
  host : ∀ e ∈ o.sent.toList, e.context.host = o.host

/-- The bus holds what was published, and every outlet has sent its part of it. -/
structure Holds (s : BusSession) (log : List Publication) : Prop where
  content : s.bus.history.toList.map (fun e => (e.event, e.source)) =
    log.map fun p => (p.event, p.source)
  sent : ∀ index outlet, s.outlets[index]? = some outlet →
    Tells (through log s.bus.history.toList index) outlet
  known : ∀ p ∈ log, p.outlet < s.outlets.length

variable {s : BusSession} {log : List Publication}

theorem Holds.length_eq (h : Holds s log) : log.length = s.bus.history.toList.length := by
  simpa using (congrArg List.length h.content).symm

/-- What an outlet is apart from being attached or not. -/
def record (o : Outlet) : Nat × Array Envelope :=
  (o.host, o.sent)

/-- The sender of a name has an outlet, or nothing is done. -/
theorem withOutlet_cases (s : BusSession) (sender : String)
    (act : Nat → Outlet → BusAnswer × BusSession) :
    s.withOutlet sender act = (.unknown, s) ∧
        (∀ index, s.senders.get? sender = some index → s.outlets[index]? = none) ∨
      ∃ index outlet, s.senders.get? sender = some index ∧ s.outlets[index]? = some outlet ∧
        s.withOutlet sender act = act index outlet := by
  unfold withOutlet
  cases hsender : s.senders.get? sender with
  | none => exact .inl ⟨rfl, nofun⟩
  | some index =>
      cases houtlet : s.outlets[index]? with
      | none => exact .inl ⟨by simp [houtlet], fun _ h => by cases h; exact houtlet⟩
      | some outlet => exact .inr ⟨index, outlet, rfl, houtlet, by simp [houtlet]⟩

theorem map_record_set {outlets : List Outlet} {index : Nat} {before after : Outlet}
    (hindex : outlets[index]? = some before) (hsame : record after = record before) :
    (outlets.set index after).map record = outlets.map record := by
  rw [List.map_set, hsame]
  apply List.ext_getElem?
  intro i
  rw [List.getElem?_set]
  split
  · rename_i heq
    subst heq
    split
    · simp [hindex]
    · simp_all
  · rfl

theorem withOutlet_quiet {sender : String} {act : Nat → Outlet → BusAnswer × BusSession}
    (hact : ∀ index outlet, s.outlets[index]? = some outlet →
      (act index outlet).2.bus = s.bus ∧
        (act index outlet).2.outlets.map record = s.outlets.map record) :
    (s.withOutlet sender act).2.bus = s.bus ∧
      (s.withOutlet sender act).2.outlets.map record = s.outlets.map record := by
  rcases s.withOutlet_cases sender act with ⟨hnone, -⟩ | ⟨index, outlet, -, houtlet, hdone⟩
  · rw [hnone]
    exact ⟨rfl, rfl⟩
  · rw [hdone]
    exact hact index outlet houtlet

/-- Publishing through the outlet of a number. -/
def publishBy (s : BusSession) (event : Event) (source : Source) (index : Nat)
    (outlet : Outlet) : BusAnswer × BusSession :=
  let (envelope, outlet) := outlet.publish s.clock event source
  let s := s.setOutlet index outlet
  match envelope with
  | some e => (.nothing, { s with bus := s.bus.push e })
  | none => (.nothing, s)

theorem step_publish (sender : String) (event : Event) (source : Source) :
    s.step (.publish sender event source) = s.withOutlet sender (s.publishBy event source) := rfl

/-- A step opens an outlet, or publishes something through one that is attached, or leaves the bus
and the records of the outlets alone. -/
theorem step_cases (s : BusSession) (action : BusStep) :
    (∃ host, (s.step action).2.bus = s.bus ∧
      (s.step action).2.outlets = s.outlets ++ [.new host] ∧ s.publication? action = none) ∨
    (∃ index outlet event source, s.outlets[index]? = some outlet ∧ outlet.detached = false ∧
      (s.step action).2.bus =
        s.bus.push ⟨.new outlet.host outlet.sent.size, s.clock, source, event⟩ ∧
      (s.step action).2.outlets =
        s.outlets.set index (outlet.publish s.clock event source).2 ∧
      s.publication? action = some ⟨index, event, source⟩) ∨
    ((s.step action).2.bus = s.bus ∧
      (s.step action).2.outlets.map record = s.outlets.map record ∧
      s.publication? action = none) := by
  have hquiet : s.publication? action = none → (s.step action).2.bus = s.bus ∧
      (s.step action).2.outlets.map record = s.outlets.map record →
      (s.step action).2.bus = s.bus ∧
        (s.step action).2.outlets.map record = s.outlets.map record ∧
        s.publication? action = none := fun hnone h => ⟨h.1, h.2, hnone⟩
  cases action with
  | create sender host => exact .inl ⟨host, rfl, rfl, rfl⟩
  | publish sender event source =>
      right
      rw [step_publish]
      rcases s.withOutlet_cases sender (s.publishBy event source) with
        ⟨hnone, hunknown⟩ | ⟨index, outlet, hsender, houtlet, hact⟩
      · right
        rw [hnone]
        refine ⟨rfl, rfl, ?_⟩
        cases hsender : s.senders.get? sender with
        | none => simp [publication?, hsender]
        | some index => simp [publication?, hsender, hunknown index hsender]
      · have hpublication : s.publication? (.publish sender event source) =
            if outlet.detached then none else some ⟨index, event, source⟩ := by
          simp [publication?, hsender, houtlet]
        rw [hpublication, hact]
        cases hdetached : outlet.detached with
        | true =>
            right
            have hpublish : outlet.publish s.clock event source = (none, outlet) := by
              simp [Outlet.publish, hdetached]
            simp only [publishBy, hpublish]
            exact ⟨rfl, map_record_set houtlet rfl, rfl⟩
        | false =>
            left
            have hpublish : (outlet.publish s.clock event source).1 =
                some ⟨.new outlet.host outlet.sent.size, s.clock, source, event⟩ := by
              simp [Outlet.publish, hdetached]
            simp only [publishBy, hpublish]
            exact ⟨index, outlet, event, source, houtlet, hdetached, rfl, rfl, rfl⟩
  | detach sender | attach sender =>
      exact .inr (.inr (hquiet rfl (withOutlet_quiet fun index outlet houtlet =>
        ⟨rfl, map_record_set houtlet rfl⟩)))
  | clone sender copy | isDetached sender =>
      exact .inr (.inr (hquiet rfl (withOutlet_quiet fun index outlet houtlet => ⟨rfl, rfl⟩)))
  | receive receiver | drain receiver =>
      refine .inr (.inr (hquiet rfl ?_))
      simp only [step]
      split <;> exact ⟨rfl, rfl⟩
  | subscribe _ | unsubscribe _ | count | sleep _ | unknown => exact .inr (.inr ⟨rfl, rfl, rfl⟩)

theorem through_append {history : List Envelope} (hlength : log.length = history.length)
    (p : Publication) (e : Envelope) (index : Nat) :
    through (log ++ [p]) (history ++ [e]) index =
      through log history index ++ if p.outlet = index then [e] else [] := by
  rw [through, List.zip_append hlength, List.filter_append, List.map_append]
  by_cases hindex : p.outlet = index <;> simp [through, hindex]

/-- Nothing went through an outlet that did not exist. -/
theorem through_fresh {history : List Envelope} {index : Nat}
    (hfresh : ∀ p ∈ log, p.outlet ≠ index) : through log history index = [] := by
  rw [through, List.map_eq_nil_iff, List.filter_eq_nil_iff]
  rintro ⟨p, e⟩ hmem
  simpa using hfresh p (List.of_mem_zip hmem).1

theorem Tells.of_record {envelopes : List Envelope} {o o' : Outlet} (h : Tells envelopes o)
    (hsame : record o' = record o) : Tells envelopes o' := by
  simp only [record, Prod.mk.injEq] at hsame
  obtain ⟨hhost, hsent⟩ := hsame
  refine ⟨by rw [hsent, h.sent], ?_, ?_⟩
  · simpa only [Outlet.Numbered, hsent] using h.numbered
  · simpa only [hhost, hsent] using h.host

theorem Tells.publish {envelopes : List Envelope} {o : Outlet} (h : Tells envelopes o)
    (hattached : o.detached = false) (time : Nat) (event : Event) (source : Source) :
    Tells (envelopes ++ [⟨.new o.host o.sent.size, time, source, event⟩])
      (o.publish time event source).2 := by
  have hsent := Outlet.publish_attached hattached time event source
  have hhost : (o.publish time event source).2.host = o.host := by
    simp [Outlet.publish, hattached]
  refine ⟨by rw [hsent, h.sent], h.numbered.publish time event source, ?_⟩
  rw [hsent, hhost]
  intro e he
  rcases List.mem_append.mp he with he | he
  · exact h.host e he
  · rw [List.mem_singleton.mp he]
    rfl

/-- What the bus holds after one more step. -/
theorem Holds.step (h : Holds s log) (action : BusStep) :
    Holds (s.step action).2 (log ++ (s.publication? action).toList) := by
  rcases s.step_cases action with ⟨host, hbus, houtlets, hnone⟩ |
    ⟨index, outlet, event, source, houtlet, hattached, hbus, houtlets, hsome⟩ |
    ⟨hbus, hrecords, hnone⟩
  · rw [hnone, Option.toList_none, List.append_nil]
    refine ⟨by rw [hbus, h.content], fun index outlet hindex => ?_, fun p hp => ?_⟩
    · rw [houtlets, List.getElem?_append] at hindex
      rw [hbus]
      split at hindex
      · exact h.sent index outlet hindex
      · rename_i hlast
        rw [List.getElem?_singleton] at hindex
        split at hindex
        · cases hindex
          rw [through_fresh fun p hp => by have := h.known p hp; omega]
          exact ⟨rfl, Outlet.new_numbered host, nofun⟩
        · cases hindex
    · rw [houtlets, List.length_append]
      exact Nat.lt_add_right _ (h.known p hp)
  · rw [hsome, Option.toList_some]
    have hindex : index < s.outlets.length := (List.getElem?_eq_some_iff.mp houtlet).1
    have hhistory : (s.step action).2.bus.history.toList = s.bus.history.toList ++
        [⟨.new outlet.host outlet.sent.size, s.clock, source, event⟩] := by
      rw [hbus, Bus.push, Array.toList_push]
    refine ⟨by rw [hhistory, List.map_append, List.map_append, h.content]; rfl,
      fun other opened hother => ?_, fun p hp => ?_⟩
    · rw [hhistory, through_append h.length_eq]
      rw [houtlets, List.getElem?_set] at hother
      by_cases hsame : index = other
      · subst hsame
        rw [if_pos rfl, if_pos hindex] at hother
        cases hother
        rw [if_pos rfl]
        exact (h.sent index outlet houtlet).publish hattached s.clock event source
      · rw [if_neg hsame] at hother
        rw [if_neg hsame, List.append_nil]
        exact h.sent other opened hother
    · rw [houtlets, List.length_set]
      rcases List.mem_append.mp hp with hp | hp
      · exact h.known p hp
      · rw [List.mem_singleton.mp hp]
        exact hindex
  · rw [hnone, Option.toList_none, List.append_nil]
    refine ⟨by rw [hbus, h.content], fun index outlet hindex => ?_, fun p hp => ?_⟩
    · have hrecord := congrArg (·[index]?) hrecords
      simp only [List.getElem?_map, hindex, Option.map_some] at hrecord
      obtain ⟨before, hbefore, hsame⟩ := Option.map_eq_some_iff.mp hrecord.symm
      rw [hbus]
      exact (h.sent index before hbefore).of_record hsame.symm
    · have hlength : (s.step action).2.outlets.length = s.outlets.length := by
        simpa using congrArg List.length hrecords
      rw [hlength]
      exact h.known p hp

theorem Holds.after (h : Holds s log) (steps : List BusStep) :
    Holds (s.after steps) (log ++ s.publications steps) := by
  induction steps generalizing s log with
  | nil => simpa [BusSession.after, publications] using h
  | cons action rest ih =>
      have hrest := ih (h.step action)
      rw [publications, ← List.append_assoc]
      exact hrest

end BusSession

/-! ### On the way along a bus -/

section Following

variable {capacity : Nat} {history : List Envelope} {p q : Nat} {seen : List Sight}

theorem Follows.append {more : List Sight} {r : Nat} (h : Follows capacity history p seen q)
    (hmore : Follows capacity history q more r) : Follows capacity history p (seen ++ more) r := by
  induction seen generalizing p with
  | nil =>
      cases h
      exact hmore
  | cons sight rest ih =>
      obtain ⟨size, reading⟩ := sight
      cases reading with
      | got e =>
          obtain ⟨hkept, hsize, he, hrest⟩ := h
          exact ⟨hkept, hsize, he, ih hrest⟩
      | lagged n =>
          obtain ⟨hpos, holdest, hrest⟩ := h
          exact ⟨hpos, holdest, ih hrest⟩
      | empty =>
          obtain ⟨hsize, hrest⟩ := h
          exact ⟨hsize, ih hrest⟩

/-- What was found stays where it is. -/
theorem Follows.later {history' : List Envelope} (hlonger : history <+: history')
    (h : Follows capacity history p seen q) : Follows capacity history' p seen q := by
  obtain ⟨new, rfl⟩ := hlonger
  induction seen generalizing p with
  | nil => exact h
  | cons sight rest ih =>
      obtain ⟨size, reading⟩ := sight
      cases reading with
      | got e =>
          obtain ⟨hkept, hsize, he, hrest⟩ := h
          have hin : p < history.length := (List.getElem?_eq_some_iff.mp he).1
          refine ⟨hkept, hsize, ?_, ih hrest⟩
          rw [List.getElem?_append_left hin, he]
      | lagged n =>
          obtain ⟨hpos, holdest, hrest⟩ := h
          exact ⟨hpos, holdest, ih hrest⟩
      | empty =>
          obtain ⟨hsize, hrest⟩ := h
          exact ⟨hsize, ih hrest⟩

/-- Envelopes that are kept are got one after the other. -/
theorem follows_drop {size : Nat} (hsize : size = history.length) (hkept : size - capacity ≤ p)
    (hp : p ≤ size) : Follows capacity history p
      ((history.drop p).map fun e => ⟨size, .got e⟩) size := by
  generalize hleft : history.drop p = left
  induction left generalizing p with
  | nil =>
      rw [List.drop_eq_nil_iff] at hleft
      exact Nat.le_antisymm hp (hsize ▸ hleft)
  | cons e rest ih =>
      have hin : p < history.length := by
        by_contra hout
        rw [List.drop_eq_nil_of_le (Nat.le_of_not_lt hout)] at hleft
        cases hleft
      rw [List.drop_eq_getElem_cons hin, List.cons.injEq] at hleft
      obtain ⟨he, hrest⟩ := hleft
      exact ⟨hkept, by omega, by rw [← he, List.getElem?_eq_getElem hin],
        ih (by omega) (by omega) hrest⟩

/-- A receiver has come this far on a bus. -/
structure Stands (b : Bus) (start : Nat) (seen : List Sight) (r : Receiver) : Prop where
  follows : Follows b.capacity b.history.toList start seen r.next
  within : r.next ≤ b.history.size

variable {b : Bus} {r : Receiver} {start : Nat}

theorem Stands.subscribe (b : Bus) : Stands b b.history.size [] b.subscribe :=
  ⟨rfl, le_rfl⟩

theorem Stands.push (h : Stands b start seen r) (e : Envelope) :
    Stands (b.push e) start seen r := by
  refine ⟨h.follows.later ?_, ?_⟩
  · simp [Bus.push]
  · simpa [Bus.push] using Nat.le_succ_of_le h.within

theorem Stands.read (h : Stands b start seen r) :
    Stands b start (seen ++ [⟨b.history.size, (b.read r).1⟩]) (b.read r).2 := by
  have hwithin := h.within
  have hread : Follows b.capacity b.history.toList r.next [⟨b.history.size, (b.read r).1⟩]
      (b.read r).2.next ∧ (b.read r).2.next ≤ b.history.size := by
    unfold Bus.read Bus.oldest
    split
    · rename_i hlags
      have hreach : r.next + (b.history.size - b.capacity - r.next) =
          b.history.size - b.capacity := by omega
      exact ⟨⟨by omega, hreach, hreach⟩, Nat.sub_le _ _⟩
    · rename_i hkept
      cases hnext : b.history[r.next]? with
      | some e =>
          have hin : r.next < b.history.size := (Array.getElem?_eq_some_iff.mp hnext).1
          exact ⟨⟨by omega, hin, by simpa using hnext, rfl⟩, hin⟩
      | none =>
          have hend : b.history.size ≤ r.next := Array.getElem?_eq_none_iff.mp hnext
          exact ⟨⟨by omega, rfl⟩, hwithin⟩
  exact ⟨h.follows.append hread.1, hread.2⟩

theorem Stands.drain (h : Stands b start seen r) :
    Stands b start
      (seen ++ ((if (b.drain r).1 = 0 then [] else [Reading.lagged (b.drain r).1]) ++
        (b.drain r).2.1.map Reading.got).map fun reading => ⟨b.history.size, reading⟩)
      (b.drain r).2.2 := by
  have hwithin := h.within
  have hfirst : max r.next b.oldest ≤ b.history.size := by unfold Bus.oldest; omega
  have hgot : Follows b.capacity b.history.toList (max r.next b.oldest) _ b.history.size :=
    follows_drop rfl (le_max_right r.next b.oldest) hfirst
  have hdrain : (b.drain r).2.2.next = b.history.size := max_eq_right hfirst
  refine ⟨?_, hdrain.le⟩
  rw [hdrain]
  refine h.follows.append ?_
  rw [List.map_append, List.map_map]
  refine Follows.append (q := max r.next b.oldest) ?_ hgot
  have hmissed : (b.drain r).1 = max r.next b.oldest - r.next := rfl
  by_cases hnone : (b.drain r).1 = 0
  · rw [if_pos hnone]
    simp only [List.map_nil, Follows]
    omega
  · rw [if_neg hnone]
    have hreach : r.next + (b.drain r).1 = max r.next b.oldest := by omega
    refine ⟨by omega, ?_, hreach⟩
    rw [hreach]
    unfold Bus.oldest at hreach ⊢
    omega

/-- What a receiver gets is what stands at the positions it comes by. -/
theorem Follows.spots (h : Follows capacity history p seen q) :
    (spots p seen).map (history[·]?) = (envelopes seen).map some := by
  induction seen generalizing p with
  | nil => rfl
  | cons sight rest ih =>
      obtain ⟨size, reading⟩ := sight
      cases reading with
      | got e =>
          obtain ⟨-, -, he, hrest⟩ := h
          simp [Session.spots, envelopes, he, ih hrest]
      | lagged n =>
          obtain ⟨-, -, hrest⟩ := h
          exact ih hrest
      | empty =>
          obtain ⟨-, hrest⟩ := h
          exact ih hrest

/-- Whoever goes along a bus goes forwards. -/
theorem spots_sorted (start : Nat) (seen : List Sight) :
    (∀ spot ∈ spots start seen, start ≤ spot) ∧ (spots start seen).Pairwise (· < ·) := by
  induction seen generalizing start with
  | nil => exact ⟨nofun, .nil⟩
  | cons sight rest ih =>
      obtain ⟨size, reading⟩ := sight
      cases reading with
      | got e =>
          obtain ⟨hle, hsorted⟩ := ih (start + 1)
          refine ⟨fun spot hspot => ?_, List.pairwise_cons.mpr ⟨hle, hsorted⟩⟩
          rcases List.mem_cons.mp hspot with rfl | hspot
          · exact le_rfl
          · exact Nat.le_of_succ_le (hle spot hspot)
      | lagged n =>
          obtain ⟨hle, hsorted⟩ := ih (start + n)
          exact ⟨fun spot hspot => Nat.le_of_add_right_le (hle spot hspot), hsorted⟩
      | empty => exact ih start

/-- What two receivers have both got, they got in the same order. -/
theorem spots_agree (start other : Nat) (seen heard : List Sight) :
    (spots start seen).filter (· ∈ spots other heard) =
      (spots other heard).filter (· ∈ spots start seen) := by
  have hseen := (spots_sorted start seen).2
  have hheard := (spots_sorted other heard).2
  refine List.Perm.eq_of_pairwise' (hseen.filter _) (hheard.filter _) ?_
  refine (List.perm_ext_iff_of_nodup ((hseen.imp ne_of_lt).filter _)
    ((hheard.imp ne_of_lt).filter _)).mpr fun spot => ?_
  simp [and_comm]

end Following

namespace BusSession

variable {s : BusSession} {receiver : String}

/-- Where a watched receiver stands. -/
def Watched (s : BusSession) (receiver : String) : Option (Nat × List Sight) → Prop
  | none => s.receivers.get? receiver = none
  | some (start, seen) => ∃ r, s.receivers.get? receiver = some r ∧ Stands s.bus start seen r

/-- A step adds at most one envelope to the bus. -/
theorem step_bus (s : BusSession) (action : BusStep) :
    (s.step action).2.bus = s.bus ∨ ∃ e, (s.step action).2.bus = s.bus.push e := by
  rcases s.step_cases action with ⟨host, hbus, -⟩ | ⟨index, outlet, event, source, -, -, hbus, -⟩ |
    ⟨hbus, -⟩
  · exact .inl hbus
  · exact .inr ⟨_, hbus⟩
  · exact .inl hbus

/-- A receiver stays where it is in a step that is not about it. -/
theorem Watched.of_quiet {s' : BusSession} {watched : Option (Nat × List Sight)}
    (h : s.Watched receiver watched) (hbus : s'.bus = s.bus ∨ ∃ e, s'.bus = s.bus.push e)
    (hreceivers : s'.receivers.get? receiver = s.receivers.get? receiver) :
    s'.Watched receiver watched := by
  cases watched with
  | none => exact hreceivers.trans h
  | some watched =>
      obtain ⟨r, hr, hstands⟩ := h
      refine ⟨r, hreceivers.trans hr, ?_⟩
      rcases hbus with hbus | ⟨e, hbus⟩
      · rwa [hbus]
      · rw [hbus]
        exact hstands.push e

/-- Steps through a sender leave the receivers alone. -/
theorem withOutlet_receivers {sender : String} {act : Nat → Outlet → BusAnswer × BusSession}
    (hact : ∀ index outlet, (act index outlet).2.receivers = s.receivers) :
    (s.withOutlet sender act).2.receivers = s.receivers := by
  rcases s.withOutlet_cases sender act with ⟨hnone, -⟩ | ⟨index, outlet, -, -, hdone⟩
  · rw [hnone]
  · rw [hdone, hact index outlet]

theorem tell_nil (watched : Option (Nat × List Sight)) : tell [] watched = watched := by
  cases watched <;> simp [tell]

/-- The receiver of a name was found somewhere and moved on. -/
theorem Watched.of_move {s' : BusSession} {watched : Option (Nat × List Sight)} {r r' : Receiver}
    {more : List Sight} (h : s.Watched receiver watched) (hr : s.receivers.get? receiver = some r)
    (hr' : s'.receivers.get? receiver = some r')
    (hmove : ∀ start seen, Stands s.bus start seen r → Stands s'.bus start (seen ++ more) r') :
    s'.Watched receiver (tell more watched) := by
  cases watched with
  | none => exact nomatch h.symm.trans hr
  | some watched =>
      obtain ⟨found, hfound, hstands⟩ := h
      cases hfound.symm.trans hr
      exact ⟨r', hr', hmove _ _ hstands⟩

/-- The watch over a receiver finds it where it is. -/
theorem Watched.step {watched : Option (Nat × List Sight)} (h : s.Watched receiver watched)
    (action : BusStep) :
    (s.step action).2.Watched receiver (watchStep receiver s action watched) := by
  have hquiet : watchStep receiver s action watched = tell [] watched →
      (s.step action).2.receivers.get? receiver = s.receivers.get? receiver →
      (s.step action).2.Watched receiver (watchStep receiver s action watched) :=
    fun hnothing hreceivers => by
      rw [hnothing, tell_nil]
      exact h.of_quiet (s.step_bus action) hreceivers
  cases action with
  | publish sender event source =>
      refine hquiet rfl (congrArg (Table.get? · receiver) (withOutlet_receivers fun _ outlet => ?_))
      cases hdetached : outlet.detached <;> simp [Outlet.publish, hdetached, setOutlet]
  | clone sender copy | detach sender | attach sender | isDetached sender =>
      exact hquiet rfl (congrArg (Table.get? · receiver) (withOutlet_receivers fun _ _ => rfl))
  | create sender host | count | sleep microseconds | unknown => exact hquiet rfl rfl
  | subscribe name =>
      by_cases hname : name = receiver
      · simp only [watchStep, if_pos hname]
        refine ⟨s.bus.subscribe, ?_, .subscribe s.bus⟩
        simp [BusSession.step, Table.get?_put, hname]
      · refine hquiet ?_ (by simp [BusSession.step, Table.get?_put, hname])
        simp [watchStep, hname, tell_nil]
  | unsubscribe name =>
      by_cases hname : name = receiver
      · simp [watchStep, Watched, BusSession.step, Table.get?_erase, hname]
      · refine hquiet ?_ (by simp [BusSession.step, Table.get?_erase, hname])
        simp [watchStep, hname, tell_nil]
  | receive name | drain name =>
      cases hr : s.receivers.get? name with
      | none =>
          refine hquiet ?_ ?_
          · simp [watchStep, sights, BusSession.step, hr]
          · simp [BusSession.step, hr]
      | some r =>
          by_cases hname : name = receiver
          · subst hname
            simp only [watchStep, sights, BusSession.step, hr, if_true]
            have hmoved (r' : Receiver) : (s.receivers.put name r').get? name = some r' := by
              simp [Table.get?_put]
            refine h.of_move hr (hmoved _) fun _ _ hstands => ?_
            first
              | exact hstands.read
              | exact hstands.drain
          · refine hquiet ?_ ?_
            · simp [watchStep, sights, BusSession.step, hr, hname]
            · simp [BusSession.step, hr, hname, Table.get?_put]

theorem Watched.watch {watched : Option (Nat × List Sight)} (h : s.Watched receiver watched)
    (steps : List BusStep) :
    (s.after steps).Watched receiver (watch receiver s steps watched) := by
  induction steps generalizing s watched with
  | nil => exact h
  | cons action rest ih => exact ih (h.step action)

theorem watched_new {capacity : Nat} (hnew : new? capacity = some s) (receiver : String) :
    s.Watched receiver (if receiver = "first" then some (0, []) else none) := by
  simp only [new?, Bus.new?, Option.map_eq_some_iff] at hnew
  obtain ⟨bus, hbus, rfl⟩ := hnew
  split at hbus
  · cases hbus
  · cases hbus
    by_cases hname : receiver = "first"
    · rw [if_pos hname, hname]
      exact ⟨_, rfl, .subscribe _⟩
    · rw [if_neg hname]
      simp [Watched, Table.get?, Ne.symm hname]

theorem holds_new {capacity : Nat} (hnew : new? capacity = some s) : Holds s [] := by
  simp only [new?, Bus.new?, Option.map_eq_some_iff] at hnew
  obtain ⟨bus, hbus, rfl⟩ := hnew
  split at hbus
  · cases hbus
  · cases hbus
    exact ⟨rfl, nofun, nofun⟩

/-- What is on the bus stays there, and the bus keeps as much as before. -/
theorem after_bus (s : BusSession) (steps : List BusStep) :
    s.bus.history.toList <+: (s.after steps).bus.history.toList ∧
      (s.after steps).bus.capacity = s.bus.capacity := by
  induction steps generalizing s with
  | nil => exact ⟨List.prefix_rfl, rfl⟩
  | cons action rest ih =>
      obtain ⟨hlonger, hcapacity⟩ := ih (s.step action).2
      rcases s.step_bus action with hbus | ⟨e, hbus⟩ <;> rw [hbus] at hlonger hcapacity
      · exact ⟨hlonger, hcapacity⟩
      · refine ⟨List.IsPrefix.trans ?_ hlonger, hcapacity⟩
        simp [Bus.push]

theorem after_append (s : BusSession) (steps more : List BusStep) :
    s.after (steps ++ more) = (s.after steps).after more :=
  List.foldl_append

/-! ### What is cut off -/

/-- Whether there is an outlet under a number that is cut off. -/
def isCut (s : BusSession) (index : Nat) : Bool :=
  s.outlets[index]?.any Outlet.detached

theorem setOutlet_isCut {i : Nat} {before : Outlet} (hbefore : s.outlets[i]? = some before)
    (after : Outlet) (index : Nat) :
    (s.setOutlet i after).isCut index = if i = index then after.detached else s.isCut index := by
  simp only [isCut, setOutlet, List.getElem?_set]
  split
  · rename_i heq
    subst heq
    simp [(List.getElem?_eq_some_iff.mp hbefore).1]
  · rfl

theorem reaches_length {sender : String} {index : Nat} (h : s.reaches sender index = true) :
    index < s.outlets.length := by
  simp only [reaches, Bool.and_eq_true, decide_eq_true_eq] at h
  exact h.2

/-- What is done to the outlet of a sender is done to no other outlet. -/
theorem withOutlet_isCut {sender : String} {act : Nat → Outlet → BusAnswer × BusSession}
    {index : Nat} (change : Outlet → Bool)
    (hact : ∀ i outlet, s.outlets[i]? = some outlet → (act i outlet).2.isCut index =
      if i = index then change outlet else s.isCut index) :
    (s.withOutlet sender act).2.isCut index =
      if s.reaches sender index then s.outlets[index]?.any change else s.isCut index := by
  rcases s.withOutlet_cases sender act with
    ⟨hnone, hunknown⟩ | ⟨i, outlet, hsender, houtlet, hdone⟩
  · have hreaches : s.reaches sender index = false := by
      by_contra hreaches
      simp only [reaches, Bool.not_eq_false, Bool.and_eq_true, decide_eq_true_eq] at hreaches
      have hmissing := hunknown index hreaches.1
      rw [List.getElem?_eq_getElem hreaches.2] at hmissing
      cases hmissing
    rw [hnone, hreaches]
    rfl
  · have hi := (List.getElem?_eq_some_iff.mp houtlet).1
    rw [hdone, hact i outlet houtlet]
    by_cases hsame : i = index
    · subst hsame
      rw [houtlet]
      simp [reaches, hsender, hi]
    · simp [reaches, hsender, hsame]

/-- A step cuts an outlet off or attaches it, or leaves that as it is. -/
theorem step_isCut (s : BusSession) (action : BusStep) (index : Nat) :
    (s.step action).2.isCut index = (s.severs? index action).getD (s.isCut index) := by
  cases action with
  | create sender host =>
      simp only [step, isCut, severs?, Option.getD_none, List.getElem?_append]
      split
      · rfl
      · rename_i hnew
        rw [List.getElem?_eq_none (Nat.le_of_not_lt hnew)]
        cases index - s.outlets.length <;> rfl
  | publish sender event source =>
      rw [step_publish, withOutlet_isCut Outlet.detached fun i outlet houtlet => ?_]
      · simp [severs?, isCut]
      · have hset := setOutlet_isCut houtlet (outlet.publish s.clock event source).2 index
        have hkept : (outlet.publish s.clock event source).2.detached = outlet.detached := by
          unfold Outlet.publish
          split <;> rfl
        rw [hkept] at hset
        rw [← hset]
        simp only [publishBy]
        split <;> rfl
  | detach sender =>
      rw [step, withOutlet_isCut (fun _ => true) fun i outlet houtlet =>
        setOutlet_isCut houtlet outlet.detach index]
      by_cases hreaches : s.reaches sender index = true
      · simp [severs?, hreaches, reaches_length hreaches]
      · simp [severs?, hreaches]
  | attach sender =>
      rw [step, withOutlet_isCut (fun _ => false) fun i outlet houtlet =>
        setOutlet_isCut houtlet outlet.attach index]
      by_cases hreaches : s.reaches sender index = true
      · simp [severs?, hreaches, reaches_length hreaches]
      · simp [severs?, hreaches]
  | clone sender copy | isDetached sender =>
      rw [step, withOutlet_isCut Outlet.detached fun i outlet houtlet => ?_]
      · exact ite_self _
      · split
        · rename_i heq
          subst heq
          simp [isCut, houtlet]
        · rfl
  | receive receiver | drain receiver =>
      simp only [step]
      split <;> rfl
  | subscribe _ | unsubscribe _ | count | sleep _ | unknown => rfl

theorem after_isCut (s : BusSession) (steps : List BusStep) (index : Nat) :
    (s.after steps).isCut index = severed index s steps (s.isCut index) := by
  induction steps generalizing s with
  | nil => rfl
  | cons action rest ih =>
      rw [severed, ← step_isCut]
      exact ih (s.step action).2

/-- The positions of what the receiver of a name has got. -/
def positions (receiver : String) (s : BusSession) (steps : List BusStep) : List Nat :=
  match watchFrom receiver s steps with
  | none => []
  | some (start, seen) => spots start seen

/-- The positions are on the way of a receiver, or there are none. -/
theorem positions_eq (receiver : String) (s : BusSession) (steps : List BusStep) :
    ∃ start seen, positions receiver s steps = spots start seen := by
  unfold positions
  cases watchFrom receiver s steps with
  | none => exact ⟨0, [], rfl⟩
  | some watched => exact ⟨watched.1, watched.2, rfl⟩

/-- How events are numbered and delivered, in every session with a bus. The bus holds what was
published through attached outlets, in that order, and keeps it where it is. What went through one
outlet has its host and the numbers from zero on, without a gap. An outlet is attached unless the
last step that detached or attached it, through any of its senders, has detached it. A receiver
follows the bus from where it stood when the receiver was made: it gets what is there, position by
position, and misses just as many as it is told it missed. So receivers agree on the order of what
they got, also with receivers that are gone by now. -/
theorem events_are_delivered (capacity : Nat) (steps : List BusStep) :
    match new? capacity with
    | none => capacity = 0 ∨ Bus.capacityLimit < capacity
    | some s₀ =>
        let s := s₀.after steps
        let log := s₀.publications steps
        let history := s.bus.history.toList
        history.map (fun e => (e.event, e.source)) = log.map (fun p => (p.event, p.source)) ∧
        (∀ n, (s₀.after (steps.take n)).bus.history.toList <+: history) ∧
        (∀ index : Fin s.outlets.length,
          (through log history index).map (fun e => (e.context.host, e.context.sequence)) =
            (List.range (through log history index).length).map (s.outlets[index].host, ·)) ∧
        (∀ index : Fin s.outlets.length,
          s.outlets[index].detached = severed index s₀ steps false) ∧
        (∀ receiver, match watchFrom receiver s₀ steps with
          | none => s.receivers.get? receiver = none
          | some (start, seen) => ∃ stop, s.receivers.get? receiver = some ⟨stop⟩ ∧
              stop ≤ history.length ∧
              Follows capacity.nextPowerOfTwo history start seen stop ∧
              (positions receiver s₀ steps).map (history[·]?) = (envelopes seen).map some) ∧
        (∀ receiver other n m,
          let mine := positions receiver s₀ (steps.take n)
          let yours := positions other s₀ (steps.take m)
          mine.Pairwise (· < ·) ∧ mine.filter (· ∈ yours) = yours.filter (· ∈ mine)) := by
  cases hnew : new? capacity with
  | none =>
      by_contra hfits
      simp [new?, Bus.new?, hfits] at hnew
  | some s₀ =>
      have hcapacity : s₀.bus.capacity = capacity.nextPowerOfTwo := by
        simp only [new?, Bus.new?, Option.map_eq_some_iff] at hnew
        obtain ⟨bus, hbus, rfl⟩ := hnew
        split at hbus <;> cases hbus
        rfl
      have hholds : Holds (s₀.after steps) (s₀.publications steps) := by
        simpa using (holds_new hnew).after steps
      refine ⟨hholds.content, fun n => ?_, fun index => ?_, fun index => ?_, fun receiver => ?_,
        fun receiver other n m => ?_⟩
      · conv => rhs; rw [← List.take_append_drop n steps, after_append]
        exact ((s₀.after (steps.take n)).after_bus (steps.drop n)).1
      · obtain ⟨hsent, hnumbered, hhost⟩ :=
          hholds.sent index _ (List.getElem?_eq_getElem index.isLt)
        rw [← hsent]
        refine List.ext_getElem (by simp) fun i hi _ => ?_
        have hi : i < (s₀.after steps).outlets[index].sent.toList.length := by simpa using hi
        have hsequence := hnumbered i _ (List.getElem?_eq_getElem hi)
        have hsender := hhost _ (List.getElem_mem hi)
        simp only [List.getElem_map, List.getElem_range, Prod.mk.injEq]
        exact ⟨hsender, hsequence⟩
      · have hnone : s₀.outlets = [] := by
          simp only [new?, Option.map_eq_some_iff] at hnew
          obtain ⟨bus, -, rfl⟩ := hnew
          rfl
        have hcut := after_isCut s₀ steps index
        simpa [isCut, hnone] using hcut
      · have hwatched := (watched_new hnew receiver).watch steps
        change Watched _ _ (watchFrom receiver s₀ steps) at hwatched
        cases hwatch : watchFrom receiver s₀ steps with
        | none => simpa [hwatch, Watched] using hwatched
        | some watched =>
            obtain ⟨start, seen⟩ := watched
            rw [hwatch] at hwatched
            obtain ⟨⟨stop⟩, hr, hfollows, hwithin⟩ := hwatched
            rw [(s₀.after_bus steps).2, hcapacity] at hfollows
            refine ⟨stop, hr, hwithin, hfollows, ?_⟩
            rw [positions, hwatch]
            exact hfollows.spots
      · obtain ⟨start, seen, hmine⟩ := positions_eq receiver s₀ (steps.take n)
        obtain ⟨start', seen', hyours⟩ := positions_eq other s₀ (steps.take m)
        simp only [hmine, hyours]
        exact ⟨(spots_sorted start seen).2, spots_agree start start' seen seen'⟩

end BusSession

end TickHost.Session
