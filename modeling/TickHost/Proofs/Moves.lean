import TickHost.Machine
import TickHost.Proofs.Acts

/-!
What code can do to the world. Every single thing that a script, a callback or another thread does
is a few moves: an act on one host, a change to what no host depends on, a note in the journal, a
name or a handle that comes or goes, a fetch that is kept or answered. A registry, a job and a
crash are never touched by moves, and no host appears.

Moves that fetch are marked, so that it can be told which code fetches nothing.
-/

namespace TickHost

open Relation

namespace Store

variable {α : Type}

theorem put_put (s : Store α) (key : Nat) (first second : α) :
    put (put s key first) key second = put s key second := by
  induction s with
  | nil => simp [put]
  | cons entry rest ih =>
      obtain ⟨k, old⟩ := entry
      by_cases h : k = key <;> simp [put, h, ih]

theorem keys_put (s : Store α) (key : Nat) (value : α) :
    keys (put s key value) = if key ∈ keys s then keys s else keys s ++ [key] := by
  induction s with
  | nil => simp [put, keys]
  | cons entry rest ih =>
      obtain ⟨k, old⟩ := entry
      simp only [keys] at ih
      by_cases h : k = key
      · simp [put, h, keys]
      · by_cases hrest : key ∈ rest.map Prod.fst <;>
          simp [put, h, keys, ih, hrest, Ne.symm h]

variable [Inhabited α]

theorem get_of_not_mem (s : Store α) (key : Nat) (h : key ∉ keys s) : get s key = default := by
  induction s with
  | nil => rfl
  | cons entry rest ih =>
      obtain ⟨k, value⟩ := entry
      simp only [keys, List.map_cons, List.mem_cons, not_or] at h ih
      simp [get, Ne.symm h.1, ih h.2]

theorem put_get (s : Store α) (key : Nat) (h : key ∈ keys s) : put s key (get s key) = s := by
  induction s with
  | nil => simp [keys] at h
  | cons entry rest ih =>
      obtain ⟨k, value⟩ := entry
      by_cases hk : k = key
      · simp [put, get, hk]
      · have hrest : key ∈ keys rest := by simpa [keys, Ne.symm hk] using h
        simp [put, get, hk, ih hrest]

end Store

namespace Entry

/-- A batch was handed to a fetcher. -/
def isFetch : Entry → Bool
  | fetching _ | fetchingNow _ => true
  | _ => false

end Entry

namespace World

/-- A host was built under this key. -/
def Has (w : World) (key : Nat) : Prop :=
  key ∈ w.hosts.keys

instance (w : World) (key : Nat) : Decidable (w.Has key) :=
  inferInstanceAs (Decidable (key ∈ w.hosts.keys))

/-- The part of the world that says who is who. -/
structure Ties where
  hosts : Store Host
  registries : Table Registry
  names : Table Nat
  handles : Table Nat
  jobs : Table Job
  fetches : List KeptFetch
  crashed : Bool

def ties (w : World) : Ties :=
  ⟨w.hosts, w.registries, w.names, w.handles, w.jobs, w.fetches, w.crashed⟩

/-- The fetches that were made so far, as the journal has them. -/
def fetchLog (w : World) : List Entry :=
  w.journal.toList.filter Entry.isFetch

@[simp]
theorem host_setHost (w : World) (key other : Nat) (h : Host) :
    (w.setHost key h).host other = if key = other then h else w.host other := by
  simp [setHost, host]

@[simp]
theorem host_updateHost (w : World) (key other : Nat) (f : Host → Host) :
    (w.updateHost key f).host other = if key = other then f (w.host key) else w.host other := by
  simp [updateHost]

section Ties

variable {w w' : World} (hties : w'.ties = w.ties)

include hties

theorem hosts_of_ties : w'.hosts = w.hosts :=
  congrArg Ties.hosts hties

theorem registries_of_ties : w'.registries = w.registries :=
  congrArg Ties.registries hties

theorem names_of_ties : w'.names = w.names :=
  congrArg Ties.names hties

theorem handles_of_ties : w'.handles = w.handles :=
  congrArg Ties.handles hties

theorem jobs_of_ties : w'.jobs = w.jobs :=
  congrArg Ties.jobs hties

theorem fetches_of_ties : w'.fetches = w.fetches :=
  congrArg Ties.fetches hties

theorem crashed_of_ties : w'.crashed = w.crashed :=
  congrArg Ties.crashed hties

theorem has_of_ties (key : Nat) : w'.Has key ↔ w.Has key := by
  rw [Has, Has, hosts_of_ties hties]

theorem host_of_ties (key : Nat) : w'.host key = w.host key := by
  rw [host, host, hosts_of_ties hties]

theorem registry_of_ties (name : String) : w'.registry name = w.registry name := by
  rw [registry, registry, registries_of_ties hties]

end Ties

theorem setHost_ties {w w' : World} (hties : w'.ties = w.ties) (key : Nat) (h : Host) :
    (w'.setHost key h).ties = (w.setHost key h).ties := by
  simp only [ties, Ties.mk.injEq, setHost] at hties ⊢
  simp [hties]

theorem setHost_setHost_ties (w : World) (key : Nat) (h h' : Host) :
    ((w.setHost key h).setHost key h').ties = (w.setHost key h').ties := by
  simp [ties, setHost, Store.put_put]

theorem setHost_self {w : World} {key : Nat} (hkey : w.Has key) :
    w.setHost key (w.host key) = w := by
  simp [setHost, host, Store.put_get _ _ hkey]

theorem has_setHost {w : World} {key : Nat} (hkey : w.Has key) (h : Host) :
    (w.setHost key h).hosts.keys = w.hosts.keys := by
  simp only [Has] at hkey
  rw [setHost, Store.keys_put, if_pos hkey]

/-- Publishing changes the outlet of the host and nothing else that matters to other hosts. -/
theorem publish_ties {w : World} {key : Nat} (hkey : w.Has key) (event : Event) (source : Source) :
    (w.publish key event source).ties =
      (w.setHost key ((w.host key).announce w.clock event source)).ties := by
  cases hdetached : (w.host key).outlet.detached with
  | true =>
      rw [Host.announce_detached _ hdetached, setHost_self hkey]
      simp [publish, Outlet.publish, hdetached]
  | false => simp [publish, Outlet.publish, hdetached, ties, setHost, Host.announce]

theorem publish_host (w : World) (key : Nat) (event : Event) (source : Source) :
    (w.publish key event source).host key = (w.host key).announce w.clock event source := by
  cases hdetached : (w.host key).outlet.detached with
  | true =>
      rw [Host.announce_detached _ hdetached]
      simp [publish, Outlet.publish, hdetached]
  | false =>
      simp only [publish, Outlet.publish, hdetached, Bool.false_eq_true, if_false, Host.announce]
      exact (w.hosts.get_put key key _).trans (if_pos rfl)

theorem publish_says (w : World) (key : Nat) (event : Event) (source : Source) :
    (w.host key).Says ((w.publish key event source).host key)
      ((w.host key).utterance w.clock event source) := by
  rw [publish_host]
  exact Host.announce_says _ _ _ _

@[simp]
theorem publish_fetchLog (w : World) (key : Nat) (event : Event) (source : Source) :
    (w.publish key event source).fetchLog = w.fetchLog := by
  unfold publish
  dsimp only
  split <;> rfl

@[simp]
theorem publish_clock (w : World) (key : Nat) (event : Event) (source : Source) :
    (w.publish key event source).clock = w.clock := by
  unfold publish
  dsimp only
  split <;> rfl

/-- One move of the world. -/
inductive Move (fetching : Bool) (w : World) : World → Prop where
  | act (key : Nat) (h' : Host) (hkey : w.Has key)
      (hact : (w.host key).Act (w.isStopping key) h') : Move fetching w (w.setHost key h')
  | aside (w' : World) (hties : w'.ties = w.ties)
      (hlog : fetching = true ∨ w'.fetchLog = w.fetchLog) : Move fetching w w'
  | lend (handle : String) (key : Nat) (hkey : w.Has key) :
      Move fetching w { w with handles := w.handles.put handle key }
  | revoke (handle : String) : Move fetching w { w with handles := w.handles.erase handle }
  | forget (name : String) : Move fetching w { w with names := w.names.erase name }
  | keep (f : KeptFetch) (hkey : w.Has f.host) (hfetching : fetching = true) :
      Move fetching w { w with fetches := w.fetches ++ [f] }
  | lose (index : Nat) : Move fetching w { w with fetches := w.fetches.eraseIdx index }

/-- Any number of moves. -/
abbrev Moves (fetching : Bool) : World → World → Prop :=
  ReflTransGen (Move fetching)

/-- Keys are given out one after the other, and everything that refers to a host refers to one
that was built. -/
structure Linked (w : World) : Prop where
  keys : w.hosts.keys = List.range w.hosts.length
  names : ∀ name key, w.names.get? name = some key → w.Has key
  handles : ∀ handle key, w.handles.get? handle = some key → w.Has key
  fetches : ∀ f ∈ w.fetches, w.Has f.host
  jobs : ∀ name job, w.jobs.get? name = some job → w.Has job.host

variable {fetching : Bool} {w w' : World}

theorem Linked.of_ties (hties : w'.ties = w.ties) (hlinked : w.Linked) : w'.Linked := by
  obtain ⟨hkeys, hnames, hhandles, hfetches, hjobs⟩ := hlinked
  simp only [ties, Ties.mk.injEq] at hties
  simp only [Has] at hnames hhandles hfetches hjobs
  constructor <;> simpa only [hties, Has]

namespace Move

theorem keys (hmove : Move fetching w w') : w'.hosts.keys = w.hosts.keys := by
  cases hmove with
  | act key h' hkey _ => exact has_setHost hkey h'
  | aside w' hties _ => rw [hosts_of_ties hties]
  | lend _ _ _ | revoke _ | forget _ | keep _ _ _ | lose _ => rfl

theorem registries (hmove : Move fetching w w') : w'.registries = w.registries := by
  cases hmove with
  | aside w' hties _ => exact registries_of_ties hties
  | act _ _ _ _ | lend _ _ _ | revoke _ | forget _ | keep _ _ _ | lose _ => rfl

theorem jobs (hmove : Move fetching w w') : w'.jobs = w.jobs := by
  cases hmove with
  | aside w' hties _ => exact jobs_of_ties hties
  | act _ _ _ _ | lend _ _ _ | revoke _ | forget _ | keep _ _ _ | lose _ => rfl

theorem acts (hmove : Move fetching w w') (key : Nat) :
    (w.host key).Acts (w.isStopping key) (w'.host key) := by
  cases hmove with
  | act acting h' _ hact =>
      rw [host_setHost]
      split
      · rename_i heq
        subst heq
        exact .single hact
      · exact .refl
  | aside w' hties _ => rw [host_of_ties hties]
  | lend _ _ _ | revoke _ | forget _ | keep _ _ _ | lose _ => exact .refl

theorem linked (hmove : Move fetching w w') (hlinked : w.Linked) : w'.Linked := by
  have hlength : w'.hosts.length = w.hosts.length := by
    simpa [Store.keys] using congrArg List.length hmove.keys
  have hhas : ∀ key, w.Has key → w'.Has key := fun key h => by rwa [Has, hmove.keys]
  have hnames : ∀ name key, w.names.get? name = some key → w'.Has key :=
    fun name key h => hhas key (hlinked.names name key h)
  have hhandles : ∀ handle key, w.handles.get? handle = some key → w'.Has key :=
    fun handle key h => hhas key (hlinked.handles handle key h)
  have hfetches : ∀ f ∈ w.fetches, w'.Has f.host := fun f h => hhas f.host (hlinked.fetches f h)
  refine ⟨by rw [hmove.keys, hlength, hlinked.keys], ?names, ?handles, ?fetches, ?jobs⟩
  case jobs =>
    rw [hmove.jobs]
    exact fun name job h => hhas job.host (hlinked.jobs name job h)
  case names =>
    cases hmove with
    | forget name =>
        intro other key h
        rw [Table.get?_erase] at h
        split at h
        · cases h
        · exact hnames other key h
    | aside w' hties _ => rwa [names_of_ties hties]
    | act _ _ _ _ | lend _ _ _ | revoke _ | keep _ _ _ | lose _ => exact hnames
  case handles =>
    cases hmove with
    | lend handle lent hkey =>
        intro other key h
        rw [Table.get?_put] at h
        split at h
        · cases h
          exact hhas _ hkey
        · exact hhandles other key h
    | revoke handle =>
        intro other key h
        rw [Table.get?_erase] at h
        split at h
        · cases h
        · exact hhandles other key h
    | aside w' hties _ => rwa [handles_of_ties hties]
    | act _ _ _ _ | forget _ | keep _ _ _ | lose _ => exact hhandles
  case fetches =>
    cases hmove with
    | keep f hkey _ =>
        intro other h
        rcases List.mem_append.mp h with h | h
        · exact hfetches other h
        · rw [List.mem_singleton.mp h]
          exact hhas _ hkey
    | lose index => exact fun f h => hfetches f (List.mem_of_mem_eraseIdx h)
    | aside w' hties _ => rwa [fetches_of_ties hties]
    | act _ _ _ _ | lend _ _ _ | revoke _ | forget _ => exact hfetches

/-- A move that fetches nothing leaves no trace of a fetch. -/
theorem unfetched (hmove : Move false w w') :
    w'.fetchLog = w.fetchLog ∧ w'.fetches.Sublist w.fetches := by
  cases hmove with
  | aside w' hties hlog =>
      rw [fetches_of_ties hties]
      exact ⟨by simpa using hlog, .refl _⟩
  | keep _ _ hfetching => cases hfetching
  | lose index => exact ⟨rfl, List.eraseIdx_sublist ..⟩
  | act _ _ _ _ | lend _ _ _ | revoke _ | forget _ => exact ⟨rfl, .refl _⟩

end Move

namespace Moves

theorem keys (hmoves : Moves fetching w w') : w'.hosts.keys = w.hosts.keys := by
  induction hmoves with
  | refl => rfl
  | tail _ hmove ih => exact hmove.keys.trans ih

theorem has (hmoves : Moves fetching w w') {key : Nat} (hkey : w.Has key) : w'.Has key := by
  rwa [Has, hmoves.keys]

theorem registries (hmoves : Moves fetching w w') : w'.registries = w.registries := by
  induction hmoves with
  | refl => rfl
  | tail _ hmove ih => exact hmove.registries.trans ih

theorem jobs (hmoves : Moves fetching w w') : w'.jobs = w.jobs := by
  induction hmoves with
  | refl => rfl
  | tail _ hmove ih => exact hmove.jobs.trans ih

theorem linked (hmoves : Moves fetching w w') (hlinked : w.Linked) : w'.Linked := by
  induction hmoves with
  | refl => exact hlinked
  | tail _ hmove ih => exact hmove.linked ih

/-- The hosts only undergo acts, under the stopping flag that they had at first. -/
theorem acts (hmoves : Moves fetching w w') (key : Nat) :
    (w.host key).Acts (w.isStopping key) (w'.host key) := by
  induction hmoves with
  | refl => exact .refl
  | @tail middle last hmoves hmove ih =>
      have hstopping : middle.isStopping key = w.isStopping key := by
        rw [isStopping, isStopping, registry, registry, Moves.registries hmoves,
          ih.works.registry]
      exact ih.trans (hstopping ▸ hmove.acts key)

theorem unfetched (hmoves : Moves false w w') :
    w'.fetchLog = w.fetchLog ∧ w'.fetches.Sublist w.fetches := by
  induction hmoves with
  | refl => exact ⟨rfl, .refl _⟩
  | tail _ hmove ih =>
      exact ⟨hmove.unfetched.1.trans ih.1, hmove.unfetched.2.trans ih.2⟩

/-- A world with the same ties is as good as the one that the moves lead to. -/
theorem of_ties {w'' : World} (hmoves : Moves fetching w w') (hties : w''.ties = w'.ties)
    (hlog : fetching = true ∨ w''.fetchLog = w'.fetchLog) : Moves fetching w w'' :=
  hmoves.tail (.aside w'' hties hlog)

/-- A change that no host depends on. -/
theorem aside (hties : w'.ties = w.ties) (hlog : fetching = true ∨ w'.fetchLog = w.fetchLog) :
    Moves fetching w w' :=
  .single (.aside w' hties hlog)

/-- An act on one host. -/
theorem act {key : Nat} (hkey : w.Has key) {h' : Host}
    (hact : (w.host key).Act (w.isStopping key) h') : Moves fetching w (w.setHost key h') :=
  .single (.act key h' hkey hact)

end Moves

/-! The moves of single operations. -/

theorem note_moves (w : World) (entry : Entry) (hentry : fetching = true ∨ entry.isFetch = false) :
    Moves fetching w (w.note entry) := by
  refine .aside rfl (hentry.imp_right fun hentry => ?_)
  simp [fetchLog, note, hentry]

theorem noteAll_moves (w : World) (entries : List Entry)
    (hentries : ∀ entry ∈ entries, entry.isFetch = false) :
    Moves fetching w (w.noteAll entries) := by
  induction entries generalizing w with
  | nil => exact .refl
  | cons entry rest ih =>
      have hfirst := hentries entry List.mem_cons_self
      have hrest := fun other h => hentries other (List.mem_cons_of_mem entry h)
      exact (w.note_moves entry (.inr hfirst)).trans (ih (w.note entry) hrest)

theorem publish_moves {key : Nat} (hkey : w.Has key) (event : Event) (source : Source)
    (hordinary : event.isOrdinary = true)
    (hrequest : w.isStopping key = true → event.isRequest = false) :
    Moves fetching w (w.publish key event source) :=
  (Moves.act hkey (.publish w.clock event source hordinary hrequest)).of_ties
    (publish_ties hkey event source) (.inr (publish_fetchLog w key event source))

theorem reportFault_moves {key : Nat} (hkey : w.Has key) (fault : ScriptFault) :
    Moves fetching w (w.reportFault key fault) :=
  publish_moves hkey _ _ rfl fun _ => rfl

theorem requestStop_moves {key : Nat} (hkey : w.Has key) :
    Moves fetching w (w.requestStop key) := by
  unfold requestStop
  split
  · exact .refl
  · rename_i hfinished
    have hflagged : (w.updateHost key fun h => { h with finished := true }).Has key := by
      rwa [Has, updateHost, has_setHost hkey]
    refine (Moves.act hkey (.stop w.clock (by simpa using hfinished))).of_ties ?_ (.inr ?_)
    · rw [publish_ties hflagged, host_updateHost, if_pos rfl]
      exact setHost_setHost_ties w key _ _
    · rw [publish_fetchLog]
      rfl

theorem acquire_moves {key : Nat} (hkey : w.Has key) : Moves fetching w (w.acquire key) :=
  .act hkey (.hold ((w.host key).users + 1))

theorem post_moves {key : Nat} (hkey : w.Has key) (command : Command) :
    Moves fetching w (w.post key command).1 := by
  unfold post
  split
  · exact .act hkey (.queue _)
  · exact .refl

theorem setTimer_moves {key : Nat} (hkey : w.Has key) (callback : Callback) (milliseconds : Nat)
    (once : Bool) : Moves fetching w (w.setTimer key callback milliseconds once).2 := by
  unfold setTimer
  dsimp only
  split
  · exact .refl
  · rename_i hopen
    simp only [Bool.or_eq_true, not_or, Bool.not_eq_true] at hopen
    exact .act hkey (.schedule callback _ once w.clock hopen.1 hopen.2)

theorem resolveAll_moves {key : Nat} (hkey : w.Has key) (references : List String) :
    Moves fetching w (w.resolveAll key references).2 := by
  unfold resolveAll
  refine List.foldlRecOn (motive := fun found : List Url × World => Moves fetching w found.2)
    references _ .refl fun found hfound reference _ => ?_
  dsimp only
  split
  · exact hfound
  · exact hfound.trans (publish_moves (hfound.has hkey) _ _ rfl fun _ => rfl)

theorem load_moves {key : Nat} (hkey : w.Has key) (reference : String) :
    Moves fetching w (w.load key reference) := by
  unfold load
  split
  · exact .refl
  · rename_i hopen
    split
    · exact publish_moves hkey _ _ rfl fun hstopping => absurd hstopping hopen
    · exact .refl

/-- A new source text and an announcement of it. -/
theorem rewrite_moves {key : Nat} (hkey : w.Has key) (script : Script) (event : Event)
    (hordinary : event.isOrdinary = true) (hrequest : event.isRequest = false) :
    Moves fetching w
      ((w.updateHost key fun h => { h with script }).publish key event .loader) := by
  have hrewrite : Moves fetching w (w.updateHost key fun h => { h with script }) :=
    .act hkey (.rewrite script)
  exact hrewrite.trans (publish_moves (hrewrite.has hkey) event .loader hordinary fun _ => hrequest)

theorem scriptArrived_moves {key : Nat} (hkey : w.Has key) (urls : List Url)
    (results : FetchResults) : Moves fetching w (w.scriptArrived key urls results) := by
  unfold scriptArrived
  dsimp only
  split
  · exact rewrite_moves hkey _ _ rfl rfl
  · exact publish_moves hkey _ _ rfl fun _ => rfl

theorem answerFetch_moves {key : Nat} (hkey : w.Has key) (urls : List Url)
    (purpose : FetchPurpose) (results : FetchResults) :
    Moves fetching w (w.answerFetch key urls purpose results) := by
  unfold answerFetch
  split
  · exact scriptArrived_moves hkey urls results
  · split
    · exact .act hkey (.queue _)
    · exact .refl

theorem fetch_moves {key : Nat} (hkey : w.Has key) (urls : List Url) (purpose : FetchPurpose) :
    Moves true w (w.fetch key urls purpose) := by
  unfold fetch
  split
  · exact answerFetch_moves hkey urls purpose _
  · rename_i fetcher hfetcher
    have hnote : Moves true w (w.note (.fetching (urls.map Url.render))) :=
      w.note_moves _ (.inl rfl)
    dsimp only
    split
    · exact hnote
    · split
      · exact hnote.tail (.keep ⟨key, fetcher, urls, purpose⟩ (hnote.has hkey) rfl)
      · exact hnote.trans (answerFetch_moves (hnote.has hkey) urls purpose _)

theorem fetchNow_moves (w : World) (key : Nat) (urls : List Url) :
    Moves true w (w.fetchNow key urls).2 := by
  unfold fetchNow
  split
  · exact .refl
  · exact w.note_moves _ (.inl rfl)

theorem complete_moves (hlinked : w.Linked) (index : Nat) :
    Moves fetching w (w.complete index).1 := by
  unfold complete
  split
  · exact .refl
  · rename_i f hf
    have hkey : w.Has f.host := hlinked.fetches f (List.mem_of_getElem? hf)
    have hlose : Moves fetching w { w with fetches := w.fetches.eraseIdx index } :=
      .single (.lose index)
    exact hlose.trans (answerFetch_moves (hlose.has hkey) _ _ _)

theorem forget_moves (w : World) (index : Nat) : Moves fetching w (w.forget index).1 := by
  unfold World.forget
  split
  · exact .refl
  · exact .single (.lose index)

theorem loadFile_moves {key : Nat} (hkey : w.Has key) (url : Url) (reference : String) :
    Moves fetching w (w.loadFile key url reference) := by
  unfold loadFile
  split
  · exact publish_moves hkey _ _ rfl fun _ => rfl
  · dsimp only
    split
    · exact rewrite_moves hkey _ _ rfl rfl
    · exact rewrite_moves hkey _ _ rfl rfl

theorem loadUrl_moves {key : Nat} (hkey : w.Has key) (reference : String) :
    Moves true w (w.loadUrl key reference).1 := by
  unfold loadUrl
  split
  · exact .refl
  · have hrewrite : Moves true w
        (w.updateHost key fun h => { h with script := ⟨h.script.contents, reference⟩ }) :=
      .act hkey (.rewrite _)
    extract_lets rewritten url
    split
    · exact hrewrite.trans (loadFile_moves (hrewrite.has hkey) _ _)
    · exact hrewrite.trans (fetch_moves (hrewrite.has hkey) _ _)

theorem drain_moves (w : World) (receiver : String) : Moves fetching w (w.drain receiver).1 := by
  unfold drain
  split
  · exact .refl
  · exact .aside rfl (.inr rfl)

theorem flushEdits_moves (w : World) (key : Nat) : Moves fetching w (w.flushEdits key) := by
  unfold flushEdits
  split
  · exact w.noteAll_moves _ (by simp [Entry.isFetch])
  · exact .refl

theorem streamTick_moves {key : Nat} (hkey : w.Has key) :
    Moves fetching w (w.streamTick key) := by
  unfold streamTick
  dsimp only
  split
  · exact ReflTransGen.trans (Moves.act hkey (.stream _))
      (noteAll_moves _ _ (by simp [Entry.isFetch]))
  · exact .refl

theorem doHandleDeed_moves {key : Nat} (hkey : w.Has key) (handle : String) (deed : HandleDeed) :
    Moves fetching w (w.doHandleDeed handle key deed).1 := by
  cases deed with
  | info => exact .refl
  | stop => exact requestStop_moves hkey
  | invoke _ | nodeKilled _ | avatarData _ | sound _ => exact post_moves hkey _
  | subscribe receiver => exact .aside rfl (.inr rfl)

/-- What its owner does to a host fetches nothing, unless it is to load another text. -/
theorem doHostDeed_moves {key : Nat} (hkey : w.Has key) (deed : HostDeed)
    (hfetching : ∀ reference, deed = .loadUrl reference → fetching = true) :
    Moves fetching w (w.doHostDeed key deed).1 := by
  cases deed with
  | run | initialise | info => exact .refl
  | stop => exact requestStop_moves hkey
  | setContents contents origin =>
      unfold doHostDeed
      dsimp only
      split
      · exact .refl
      · exact .act hkey (.rewrite _)
  | loadUrl reference =>
      rw [hfetching reference rfl]
      exact loadUrl_moves hkey reference
  | setParent parent => exact .act hkey (.adopt parent)
  | avatarData _ | nodeKilled _ => exact .act hkey (.stream _)
  | subscribe receiver => exact .aside rfl (.inr rfl)

theorem setNamedTimer_moves {key : Nat} (hkey : w.Has key) (name : String) (callback : Callback)
    (milliseconds : Nat) (once : Bool) :
    Moves fetching w (w.setNamedTimer key name callback milliseconds once).1 :=
  (setTimer_moves hkey callback milliseconds once).of_ties rfl (.inr rfl)

/-- An include resolves its references and then fetches, unless everything is stopping. -/
theorem include_moves {key : Nat} (hkey : w.Has key) (references : List String)
    (callback : Callback) (hopen : w.isStopping key = false) :
    Moves (!w.isStopping key) w
      ((w.resolveAll key references).2.fetch key (w.resolveAll key references).1
        (.includeAll callback)) := by
  have hresolve : Moves true w (w.resolveAll key references).2 := resolveAll_moves hkey references
  rw [hopen]
  exact hresolve.trans (fetch_moves (hresolve.has hkey) _ _)

theorem doScriptDeed_moves {key : Nat} (hkey : w.Has key) (name : String) (deed : ScriptDeed) :
    Moves (!w.isStopping key) w (w.doScriptDeed key name deed).1 := by
  cases deed with
  | timeout _ _ _ | interval _ _ _ => exact setNamedTimer_moves hkey _ _ _ _
  | clear timer =>
      unfold doScriptDeed
      dsimp only
      split
      · exact .act hkey (.cancel _)
      · exact .refl
  | timers | state => exact .refl
  | resolve reference =>
      unfold doScriptDeed
      dsimp only
      split <;> exact .refl
  | includeAll references call =>
      cases call with
      | none => exact .refl
      | some call =>
          unfold doScriptDeed
          dsimp only
          split
          · exact .refl
          · rename_i hopen
            exact include_moves hkey references _ (by simpa using hopen)
  | evaluate _ _ _ => exact .refl
  | load reference => exact load_moves hkey reference
  | print text => exact publish_moves hkey _ _ rfl fun _ => rfl
  | stop => exact requestStop_moves hkey
  | connect signal call => exact .act hkey (.connect signal _)
  | avatarMode _ | listen _ | sound _ | avatarData _ => exact .act hkey (.stream _)
  | handle name => exact .single (.lend name key hkey)

end World

end TickHost
