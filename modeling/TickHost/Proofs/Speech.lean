import TickHost.Bus

/-!
What hosts say. The events of a host fall into those that code can cause at any time, those that
evaluations, stop requests and ticks cause, and those that only a run publishes at its end. An
outlet only ever appends to what it has published, and numbers what it appends.

`Speech` is the language spoken while the stop flag of a host goes from one value to another. A
stop request is announced exactly once, and some events are only heard before it.
-/

namespace TickHost

namespace Event

/-- Events that code can cause at any time. -/
def isOrdinary : Event → Bool
  | scriptLoaded _ | errorLoadingScript _ | errorMessage _ | printedMessage _
  | loadScriptRequest _ _ => true
  | _ => false

/-- A script asks for another script. -/
def isRequest : Event → Bool
  | loadScriptRequest _ _ => true
  | _ => false

/-- Events that have no place of their own in a run. -/
def isInner : Event → Bool
  | evaluationFinished _ _ => true
  | e => e.isOrdinary

def isUpdate : Event → Bool
  | update _ => true
  | _ => false

/-- Events of a run whose body was evaluated and that nobody has asked to stop. -/
def isTicking (e : Event) : Bool :=
  e.isInner || e.isUpdate

theorem isInner_of_isOrdinary {e : Event} (h : e.isOrdinary = true) : e.isInner = true := by
  cases e <;> first | rfl | cases h

end Event

/-- The events in a list of envelopes. -/
def Envelope.events (es : List Envelope) : List Event :=
  es.map Envelope.event

@[simp]
theorem Envelope.events_nil : Envelope.events [] = [] := rfl

@[simp]
theorem Envelope.events_append (es es' : List Envelope) :
    Envelope.events (es ++ es') = Envelope.events es ++ Envelope.events es' :=
  List.map_append

namespace Outlet

/-- Numbers are given out in the order of publication, from zero. -/
def Numbered (o : Outlet) : Prop :=
  ∀ (i : Nat) (e : Envelope), o.sent.toList[i]? = some e → e.context.sequence = i

theorem publish_detached {o : Outlet} (hdetached : o.detached = true) (time : Nat) (event : Event)
    (source : Source) : (o.publish time event source).2 = o := by
  simp [publish, hdetached]

theorem publish_attached {o : Outlet} (hattached : o.detached = false) (time : Nat) (event : Event)
    (source : Source) :
    (o.publish time event source).2.sent.toList =
      o.sent.toList ++ [⟨.new o.host o.sent.size, time, source, event⟩] := by
  simp [publish, hattached]

@[simp]
theorem publish_detached_eq (o : Outlet) (time : Nat) (event : Event) (source : Source) :
    (o.publish time event source).2.detached = o.detached := by
  cases h : o.detached <;> simp [publish, h]

theorem new_numbered (host : Nat) : (Outlet.new host).Numbered := by
  intro i e he
  simp [new] at he

theorem Numbered.publish {o : Outlet} (h : o.Numbered) (time : Nat) (event : Event)
    (source : Source) : (o.publish time event source).2.Numbered := by
  cases hdetached : o.detached with
  | true => rwa [publish_detached hdetached]
  | false =>
      intro i e he
      rw [publish_attached hdetached, List.getElem?_append] at he
      split at he
      · exact h i e he
      · rename_i hge
        rw [List.getElem?_singleton] at he
        split at he
        · rename_i hzero
          cases he
          simp only [Array.length_toList, Nat.not_lt] at hge hzero
          simp only [Context.new]
          omega
        · cases he

end Outlet

/-- What is said while a stop flag goes from one value to another. Before the flag is raised all
events are `early` ones; raising it is announced; afterwards all events are inner ones. -/
def Speech (early : Event → Bool) : Bool → Bool → List Event → Prop
  | false, false, es => es.all early = true
  | true, true, es => es.all Event.isInner = true
  | false, true, es => ∃ before after, es = before ++ .runningStateChanged :: after ∧
      before.all early = true ∧ after.all Event.isInner = true
  | true, false, _ => False

namespace Speech

variable {early : Event → Bool} {a b c : Bool} {es es' : List Event}

theorem silent (a : Bool) : Speech early a a [] := by
  cases a <;> rfl

theorem inner (hearly : ∀ e, e.isInner = true → early e = true) (a : Bool) {e : Event}
    (he : e.isInner = true) : Speech early a a [e] := by
  cases a <;> simp [Speech, he, hearly e he]

theorem stop : Speech early false true [.runningStateChanged] :=
  ⟨[], [], rfl, rfl, rfl⟩

theorem append (h : Speech early a b es) (h' : Speech early b c es') :
    Speech early a c (es ++ es') := by
  cases a <;> cases b <;> cases c <;> simp only [Speech] at h h' ⊢
  · simp [h, h']
  · obtain ⟨before, after, rfl, hbefore, hafter⟩ := h'
    exact ⟨es ++ before, after, by simp, by simp [h, hbefore], hafter⟩
  · obtain ⟨before, after, rfl, hbefore, hafter⟩ := h
    exact ⟨before, after ++ es', by simp, hbefore, by simp [hafter, h']⟩
  · simp [h, h']

theorem mono {late : Event → Bool} (hle : ∀ e, early e = true → late e = true)
    (h : Speech early a b es) : Speech late a b es := by
  have hall : ∀ es : List Event, es.all early = true → es.all late = true := fun es hes =>
    List.all_eq_true.mpr fun e he => hle e (List.all_eq_true.mp hes e he)
  cases a <;> cases b <;> simp only [Speech] at h ⊢
  · exact hall es h
  · obtain ⟨before, after, hes, hbefore, hafter⟩ := h
    exact ⟨before, after, hes, hall before hbefore, hafter⟩
  · exact h

end Speech

end TickHost
