import TickHost.Proofs.Moves

/-!
What nobody notices. Hosts say what happens to them, but nothing that they do depends on what they
have said. A hushed world is a world without it: its buses are empty, its outlets have sent
nothing, its receivers have not moved, and its journal does not show what was read from a bus. Two
worlds that are the same when they are hushed go on in the same way, and the one says what the
other says. Numbers of events may differ from one world to the other, everything else is the same.
-/

namespace TickHost

/-! ### What was said -/

/-- An envelope without its number. -/
def Envelope.unnumbered (e : Envelope) : Envelope :=
  { e with context := { e.context with sequence := 0 } }

def Event.isError : Event → Bool
  | errorMessage _ => true
  | _ => false

/-- The second list is the first one without some of its error messages. -/
def Thins (said thinned : List Envelope) : Prop :=
  thinned.Sublist said ∧
    thinned.filter (fun e => !e.event.isError) = said.filter fun e => !e.event.isError

theorem Thins.refl (said : List Envelope) : Thins said said :=
  ⟨.refl _, rfl⟩

theorem Thins.append {said thinned more more' : List Envelope} (h : Thins said thinned)
    (hmore : Thins more more') : Thins (said ++ more) (thinned ++ more') :=
  ⟨h.1.append hmore.1, by rw [List.filter_append, List.filter_append, h.2, hmore.2]⟩

namespace Outlet

def hushed (o : Outlet) : Outlet :=
  { o with sent := #[] }

end Outlet

namespace Host

/-- A host that has said nothing. -/
def hushed (h : Host) : Host :=
  { h with outlet := h.outlet.hushed }

/-- What a host has said, without the numbers. -/
def said (h : Host) : List Envelope :=
  h.published.map Envelope.unnumbered

/-- What a host would say now. -/
def remark (h : Host) (time : Nat) (event : Event) (source : Source) : List Envelope :=
  (h.utterance time event source).map Envelope.unnumbered

theorem announce_said (h : Host) (time : Nat) (event : Event) (source : Source) :
    (h.announce time event source).said = h.said ++ h.remark time event source := by
  rw [said, announce_says h time event source, List.map_append, said, remark]

/-- A host says one thing at a time, and nothing at all while it is cut off. -/
theorem remark_eq (h : Host) (time : Nat) (event : Event) (source : Source) :
    h.remark time event source =
      if h.outlet.detached then [] else [⟨.new h.outlet.host 0, time, source, event⟩] := by
  cases hcut : h.outlet.detached <;>
    simp [remark, utterance, hcut, Envelope.unnumbered, Context.new]

theorem remark_of_hushed {h h' : Host} (hsame : h'.hushed = h.hushed) (time : Nat) (event : Event)
    (source : Source) : h'.remark time event source = h.remark time event source := by
  have houtlet : h'.outlet.hushed = h.outlet.hushed := congrArg Host.outlet hsame
  simp only [Outlet.hushed, Outlet.mk.injEq] at houtlet
  rw [remark_eq, remark_eq, houtlet.1, houtlet.2.2]

end Host

def Bus.hushed (b : Bus) : Bus :=
  { b with history := #[] }

/-- What a bus has carried, without the numbers. -/
def Bus.carried (b : Bus) : List Envelope :=
  b.history.toList.map Envelope.unnumbered

def Subscription.hushed (s : Subscription) : Subscription :=
  { s with receiver := ⟨0⟩ }

/-- An answer without what it shows of a bus. -/
def Answer.hushed : Answer → Answer
  | drained _ _ closed => drained 0 [] closed
  | a => a

def Entry.hushed : Entry → Entry
  | answered action answer => answered action answer.hushed
  | e => e

/-! ### Tables and stores, value by value -/

namespace Store

variable {α : Type}

/-- Every value of a store is changed. -/
def each (f : α → α) (s : Store α) : Store α :=
  s.map fun (key, value) => (key, f value)

variable (f : α → α) (s : Store α)

@[simp]
theorem keys_each : (s.each f).keys = s.keys := by
  simp [each, keys, Function.comp_def]

@[simp]
theorem fresh_each : (s.each f).fresh = s.fresh := by
  simp [each, fresh]

theorem each_put (key : Nat) (value : α) :
    (s.put key value).each f = (s.each f).put key (f value) := by
  induction s with
  | nil => rfl
  | cons entry rest ih =>
      obtain ⟨k, old⟩ := entry
      by_cases h : k = key
      · simp [put, each, h]
      · simp only [put, each, h, if_false, List.map_cons] at ih ⊢
        rw [ih]

theorem keys_subset_put (key : Nat) (value : α) : s.keys ⊆ (s.put key value).keys := by
  rw [keys_put]
  split
  · exact List.Subset.refl _
  · exact List.subset_append_left _ _

theorem mem_keys_put (key : Nat) (value : α) : key ∈ (s.put key value).keys := by
  rw [keys_put]
  split
  · assumption
  · exact List.mem_append_right _ List.mem_cons_self

theorem get_each [Inhabited α] (hf : f default = default) (key : Nat) :
    (s.each f).get key = f (s.get key) := by
  induction s with
  | nil => exact hf.symm
  | cons entry rest ih =>
      obtain ⟨k, value⟩ := entry
      simp only [get, each, List.map_cons] at ih ⊢
      split
      · rfl
      · exact ih

end Store

namespace Table

variable {α : Type}

/-- Every value of a table is changed. -/
def each (f : α → α) (t : Table α) : Table α :=
  t.map fun (name, value) => (name, f value)

variable (f : α → α) (t : Table α) (name : String)

theorem get?_each : (t.each f).get? name = (t.get? name).map f := by
  induction t with
  | nil => rfl
  | cons entry rest ih =>
      obtain ⟨key, value⟩ := entry
      simp only [get?, each, List.map_cons] at ih ⊢
      split
      · rfl
      · exact ih

@[simp]
theorem has_each : (t.each f).has name = t.has name := by
  rw [has, has, get?_each, Option.isSome_map]

theorem each_put (value : α) : (t.put name value).each f = (t.each f).put name (f value) := by
  induction t with
  | nil => rfl
  | cons entry rest ih =>
      obtain ⟨key, old⟩ := entry
      by_cases h : key = name
      · simp [put, each, h]
      · simp only [put, each, h, if_false, List.map_cons] at ih ⊢
        rw [ih]

theorem each_erase : (t.erase name).each f = (t.each f).erase name := by
  simp [erase, each, List.filter_map, Function.comp_def]

end Table

/-! ### Hushed worlds -/

namespace World

/-- A world in which nothing was said. -/
def hushed (w : World) : World :=
  { w with
    buses := w.buses.each Bus.hushed
    hosts := w.hosts.each Host.hushed
    receivers := w.receivers.each Subscription.hushed
    journal := w.journal.map Entry.hushed }

variable (w : World) (key : Nat)

@[simp]
theorem host_hushed : w.hushed.host key = (w.host key).hushed :=
  w.hosts.get_each _ rfl key

/-! What does not depend on what was said. -/

@[simp]
theorem isStopping_hushed : w.hushed.isStopping key = w.isStopping key := by
  simp only [isStopping, host_hushed]
  rfl

@[simp]
theorem isHeld_hushed : w.hushed.isHeld key = w.isHeld key := by
  simp only [isHeld, host_hushed]
  rfl

@[simp]
theorem isShared_hushed : w.hushed.isShared key = w.isShared key := by
  simp only [isShared, host_hushed]
  rfl

@[simp]
theorem isOpen_hushed (bus : Nat) : w.hushed.isOpen bus = w.isOpen bus := by
  have hkeys : w.hushed.hosts.keys = w.hosts.keys := w.hosts.keys_each _
  simp only [isOpen, hkeys, host_hushed, isShared_hushed]
  rfl

@[simp]
theorem isReady_hushed (job : Job) : w.hushed.isReady job = w.isReady job := by
  cases job <;> simp only [isReady, host_hushed] <;> rfl

@[simp]
theorem registryReport_hushed (name : String) :
    w.hushed.registryReport name = w.registryReport name := by
  simp only [registryReport, host_hushed, isShared_hushed]
  rfl

/-- What the host of a key has said. -/
def said : List Envelope :=
  (w.host key).said

/-- What a bus has carried. -/
def aired (bus : Nat) : List Envelope :=
  (w.buses.get bus).carried

/-- The part of the world that holds what was said. -/
def spoken : Store Host × Store Bus :=
  (w.hosts, w.buses)

/-! What publishing does. -/

variable (event : Event) (source : Source)

theorem publish_said (other : Nat) :
    (w.publish key event source).said other =
      w.said other ++ if key = other then (w.host key).remark w.clock event source else [] := by
  by_cases hother : key = other
  · subst hother
    rw [if_pos rfl, said, publish_host, Host.announce_said, said]
  · rw [if_neg hother, List.append_nil, said, said]
    congr 1
    unfold publish
    dsimp only
    split
    · rfl
    · simp [World.host, World.setHost, hother]

theorem publish_aired (bus : Nat) :
    (w.publish key event source).aired bus = w.aired bus ++
      if (w.host key).bus = bus then (w.host key).remark w.clock event source else [] := by
  unfold publish Outlet.publish
  cases hcut : (w.host key).outlet.detached with
  | true => simp [aired, Host.remark, Host.utterance, hcut]
  | false =>
      by_cases hbus : (w.host key).bus = bus <;>
        simp [aired, Host.remark, Host.utterance, hcut, hbus, Bus.carried, Bus.push]

/-- Publishing leaves nothing in a hushed world, except that it opens a place for the host and for
its bus if there is none. -/
theorem publish_hushed : (w.publish key event source).hushed =
    if (w.hushed.host key).outlet.detached then w.hushed
    else { w.hushed with
      hosts := w.hushed.hosts.put key (w.hushed.host key)
      buses := w.hushed.buses.put (w.hushed.host key).bus
        (w.hushed.buses.get (w.hushed.host key).bus) } := by
  have hbus : w.hushed.buses.get (w.host key).bus = (w.buses.get (w.host key).bus).hushed :=
    w.buses.get_each _ rfl _
  have hdetached : (w.hushed.host key).outlet.detached = (w.host key).outlet.detached := by
    rw [host_hushed]
    rfl
  have hsame : (w.hushed.host key).bus = (w.host key).bus := by
    rw [host_hushed]
    rfl
  rw [hdetached, hsame, hbus, host_hushed]
  unfold publish Outlet.publish
  cases hcut : (w.host key).outlet.detached with
  | true => simp [hcut]
  | false =>
      simp only [hcut, Bool.false_eq_true, if_false, hushed, setHost, Store.each_put, Host.hushed,
        Outlet.hushed, Bus.hushed, Bus.push]

/-! ### Worlds that are alike -/

/-- Two worlds are the same when they are hushed. Since `v` and `v'` the hosts have said the same
things in both, and no bus was closed; and on the buses of the second one some error messages may be
missing. -/
structure Alike (v v' w w' : World) : Prop where
  hushed : w'.hushed = w.hushed
  said : ∀ key, ∃ news, w.said key = v.said key ++ news ∧ w'.said key = v'.said key ++ news
  aired : ∀ bus, Thins (w.aired bus) (w'.aired bus)
  buses : v.buses.keys ⊆ w.buses.keys
  shared : ∀ name bus, w.sharedBuses.get? name = some bus → bus ∈ w.buses.keys

theorem publish_buses : w.buses.keys ⊆ (w.publish key event source).buses.keys := by
  unfold publish
  dsimp only
  split
  · exact List.Subset.refl _
  · exact Store.keys_subset_put _ _ _

theorem publish_sharedBuses : (w.publish key event source).sharedBuses = w.sharedBuses := by
  unfold publish
  dsimp only
  split <;> rfl

end World

namespace World.Alike

variable {v v' w w' : World} (h : Alike v v' w w')

include h

/-- What does not depend on what was said is the same. -/
theorem same {α : Sort _} (f : World → α) (hf : ∀ w, f w.hushed = f w) : f w' = f w := by
  rw [← hf w', h.hushed, hf]

theorem host (key : Nat) : (w'.host key).hushed = (w.host key).hushed := by
  rw [← host_hushed, h.hushed, host_hushed]

theorem worlds :
    w'.clock = w.clock ∧ w'.disk = w.disk ∧ w'.remote = w.remote ∧ w'.programs = w.programs ∧
    w'.functions = w.functions ∧ w'.network = w.network ∧ w'.avatars = w.avatars ∧
    w'.buses.each Bus.hushed = w.buses.each Bus.hushed ∧
    w'.hosts.each Host.hushed = w.hosts.each Host.hushed ∧ w'.registries = w.registries ∧
    w'.sharedBuses = w.sharedBuses ∧
    w'.receivers.each Subscription.hushed = w.receivers.each Subscription.hushed ∧
    w'.names = w.names ∧ w'.handles = w.handles ∧ w'.timers = w.timers ∧ w'.jobs = w.jobs ∧
    w'.fetches = w.fetches ∧ w'.thread = w.thread ∧
    w'.journal.map Entry.hushed = w.journal.map Entry.hushed ∧ w'.crashed = w.crashed := by
  simpa only [World.hushed, World.mk.injEq] using h.hushed

theorem hosts (key : Nat) :
    (w'.host key).name = (w.host key).name ∧ (w'.host key).id = (w.host key).id ∧
    (w'.host key).registry = (w.host key).registry ∧
    (w'.host key).settings = (w.host key).settings ∧ (w'.host key).bus = (w.host key).bus ∧
    (w'.host key).outlet.hushed = (w.host key).outlet.hushed ∧
    (w'.host key).fetcher = (w.host key).fetcher ∧
    (w'.host key).onNetwork = (w.host key).onNetwork ∧ (w'.host key).queue = (w.host key).queue ∧
    (w'.host key).directives = (w.host key).directives ∧ (w'.host key).api = (w.host key).api ∧
    (w'.host key).maxUpdates = (w.host key).maxUpdates ∧
    (w'.host key).script = (w.host key).script ∧ (w'.host key).parent = (w.host key).parent ∧
    (w'.host key).initialized = (w.host key).initialized ∧
    (w'.host key).running = (w.host key).running ∧
    (w'.host key).finished = (w.host key).finished ∧ (w'.host key).done = (w.host key).done ∧
    (w'.host key).pending = (w.host key).pending ∧ (w'.host key).timers = (w.host key).timers ∧
    (w'.host key).signals = (w.host key).signals ∧
    (w'.host key).commands = (w.host key).commands ∧
    (w'.host key).streamer = (w.host key).streamer ∧
    (w'.host key).updates = (w.host key).updates ∧ (w'.host key).alive = (w.host key).alive ∧
    (w'.host key).users = (w.host key).users := by
  simpa only [Host.hushed, Host.mk.injEq] using h.host key

/-- What can be asked about worlds and hosts. -/
theorem answers :
    (∀ name, w'.registry name = w.registry name ∧
      w'.registryReport name = w.registryReport name) ∧
    (∀ bus, w'.isOpen bus = w.isOpen bus) ∧ (∀ job, w'.isReady job = w.isReady job) ∧
    ∀ key, w'.isStopping key = w.isStopping key ∧ w'.isHeld key = w.isHeld key ∧
      w'.isShared key = w.isShared key ∧ (w'.host key).report = (w.host key).report ∧
      (w'.host key).filename = (w.host key).filename ∧
      (∀ signal, (w'.host key).callbacks signal = (w.host key).callbacks signal) ∧
      ∀ reference, (w'.host key).resolve? reference = (w.host key).resolve? reference := by
  refine ⟨fun name => ⟨?_, h.same (World.registryReport · name) fun w =>
      w.registryReport_hushed name⟩,
    fun bus => h.same (World.isOpen · bus) fun w => w.isOpen_hushed bus,
    fun job => h.same (World.isReady · job) fun w => w.isReady_hushed job,
    fun key => ⟨h.same (World.isStopping · key) fun w => w.isStopping_hushed key,
      h.same (World.isHeld · key) fun w => w.isHeld_hushed key,
      h.same (World.isShared · key) fun w => w.isShared_hushed key, ?_⟩⟩
  · simp only [World.registry, h.worlds]
  · simp only [Host.report, Host.filename, Host.callbacks, Host.resolve?, h.hosts, implies_true,
      and_self]

/-- A change that touches neither hosts nor buses. -/
theorem aside {u u' : World} (hu : u'.hushed = u.hushed) (hspoken : u.spoken = w.spoken)
    (hspoken' : u'.spoken = w'.spoken) (hshared : u.sharedBuses = w.sharedBuses) :
    Alike v v' u u' := by
  simp only [spoken, Prod.mk.injEq] at hspoken hspoken'
  obtain ⟨hhosts, hbuses⟩ := hspoken
  obtain ⟨hhosts', hbuses'⟩ := hspoken'
  refine ⟨hu, fun key => ?_, fun bus => ?_, ?_, ?_⟩
  · simp only [World.said, World.host, hhosts, hhosts']
    exact h.said key
  · simp only [World.aired, hbuses, hbuses']
    exact h.aired bus
  · rw [hbuses]
    exact h.buses
  · rw [hbuses, hshared]
    exact h.shared

/-- A host gives way to another one that has said as much. -/
theorem setHost (key : Nat) {g g' : Host} (hg : g'.hushed = g.hushed)
    (hsent : g.outlet.sent = (w.host key).outlet.sent)
    (hsent' : g'.outlet.sent = (w'.host key).outlet.sent) :
    Alike v v' (w.setHost key g) (w'.setHost key g') where
  hushed := by
    have hset (w : World) (g : Host) :
        (w.setHost key g).hushed = w.hushed.setHost key g.hushed := by
      simp only [World.setHost, World.hushed, Store.each_put]
    rw [hset, hset, h.hushed, hg]
  said other := by
    have hset {w : World} {g : Host} (hsent : g.outlet.sent = (w.host key).outlet.sent) :
        (w.setHost key g).said other = w.said other := by
      rw [World.said, World.said, host_setHost]
      split
      · rename_i heq
        rw [Host.said, Host.said, Host.published, Host.published, hsent, heq]
      · rfl
    rw [hset hsent, hset hsent']
    exact h.said other
  aired := h.aired
  buses := h.buses
  shared := h.shared

/-- A host is changed in which nothing is said. -/
theorem edit (key : Nat) (f : Host → Host)
    (hf : ∀ h, (f h).hushed = f h.hushed ∧ (f h).outlet.sent = h.outlet.sent) :
    Alike v v' (w.updateHost key f) (w'.updateHost key f) :=
  h.setHost key (by rw [(hf _).1, (hf _).1, h.host]) (hf _).2 (hf _).2

/-- What a host says, it says in both worlds, at the same time. -/
theorem publish (key : Nat) (event : Event) (source : Source) :
    Alike v v' (w.publish key event source) (w'.publish key event source) where
  hushed := by rw [publish_hushed, publish_hushed, h.hushed]
  said other := by
    obtain ⟨news, hsaid, hsaid'⟩ := h.said other
    rw [publish_said, publish_said, Host.remark_of_hushed (h.host key), h.worlds.1, hsaid, hsaid']
    simp only [List.append_assoc]
    exact ⟨_, rfl, rfl⟩
  aired bus := by
    simp only [publish_aired, Host.remark_of_hushed (h.host key), h.worlds, h.hosts]
    exact (h.aired bus).append (.refl _)
  buses := fun bus hbus => publish_buses w key event source (h.buses hbus)
  shared name bus hname := by
    rw [publish_sharedBuses] at hname
    exact publish_buses w key event source (h.shared name bus hname)

theorem note {entry entry' : Entry} (he : entry'.hushed = entry.hushed) :
    Alike v v' (w.note entry) (w'.note entry') where
  hushed := by
    have hnote (w : World) (entry : Entry) :
        (w.note entry).hushed = w.hushed.note entry.hushed := by
      simp only [World.note, World.hushed, Array.map_push]
    rw [hnote, hnote, h.hushed, he]
  said := h.said
  aired := h.aired
  buses := h.buses
  shared := h.shared

theorem noteAll (entries : List Entry) : Alike v v' (w.noteAll entries) (w'.noteAll entries) := by
  induction entries generalizing w w' with
  | nil => exact h
  | cons entry rest ih =>
      have hnote : Alike v v' (w.note entry) (w'.note entry) := h.note rfl
      exact ih hnote

/-- A new receiver stands at the end of its bus, wherever that is. -/
theorem subscribe (receiver : String) (bus : Nat) :
    Alike v v' (w.subscribe receiver bus) (w'.subscribe receiver bus) where
  hushed := by
    have hsubscribe (w : World) : (w.subscribe receiver bus).hushed =
        { w.hushed with receivers := w.hushed.receivers.put receiver ⟨bus, ⟨0⟩⟩ } := by
      simp only [World.subscribe, World.hushed, Table.each_put]
      rfl
    rw [hsubscribe, hsubscribe, h.hushed]
  said := h.said
  aired := h.aired
  buses := h.buses
  shared := h.shared

/-- A new bus has carried nothing. -/
theorem addBus {bus : Bus} (hnew : bus.history = #[]) :
    (w'.addBus bus).1 = (w.addBus bus).1 ∧ Alike v v' (w.addBus bus).2 (w'.addBus bus).2 := by
  have hfresh : w'.buses.fresh = w.buses.fresh := by
    rw [← Store.fresh_each Bus.hushed, ← Store.fresh_each Bus.hushed w.buses]
    exact congrArg (fun w => w.buses.fresh) h.hushed
  have hkept : w.buses.keys ⊆ (w.addBus bus).2.buses.keys := Store.keys_subset_put _ _ _
  refine ⟨hfresh, ?_, h.said, fun other => ?_, fun other hother => hkept (h.buses hother),
    fun name other hname => hkept (h.shared name other hname)⟩
  · have hadd (w : World) : (w.addBus bus).2.hushed =
        { w.hushed with buses := w.hushed.buses.put w.buses.fresh bus.hushed } := by
      simp only [World.addBus, World.hushed, Store.each_put]
    rw [hadd, hadd, h.hushed, hfresh]
  · have hadd (w : World) : (w.addBus bus).2.aired other =
        if w.buses.fresh = other then [] else w.aired other := by
      simp only [World.addBus, World.aired, Store.get_put]
      split
      · simp [Bus.carried, hnew]
      · rfl
    rw [hadd, hadd, hfresh]
    split
    · exact .refl _
    · exact h.aired other

/-- A bus gets a name under which hosts can share it. -/
theorem shareBus (name : String) {bus : Nat} (hbus : bus ∈ w.buses.keys) :
    Alike v v' { w with sharedBuses := w.sharedBuses.put name bus }
      { w' with sharedBuses := w'.sharedBuses.put name bus } where
  hushed := by simp only [World.hushed, h.worlds]
  said := h.said
  aired := h.aired
  buses := h.buses
  shared other found hother := by
    rw [Table.get?_put] at hother
    split at hother
    · cases hother
      exact hbus
    · exact h.shared other found hother

/-- What went on since a moment begins anew. -/
theorem anew : Alike w w' w w' :=
  ⟨h.hushed, fun _ => ⟨[], (List.append_nil _).symm, (List.append_nil _).symm⟩, h.aired,
    List.Subset.refl _, h.shared⟩

end World.Alike

end TickHost
