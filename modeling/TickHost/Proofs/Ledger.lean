import Mathlib.Data.Finmap
import TickHost.Proofs.Handles

/-!
A table of timers answers as a finite map from handles to timers would, one that remembers which
handles it has given out and never gives one out twice. The arena behind the table, its free list
and its generations do not show.
-/

namespace TickHost

/-- A map from handles to timers, with the handles given out so far. -/
structure Ledger (α : Type) where
  issued : Finset TimerId
  live : Finmap fun _ : TimerId => Timer α

namespace Ledger

open Timers (Request Reply)

variable {α : Type}

def blank : Ledger α := ⟨∅, ∅⟩

/-- Both handles are live, and the first one is due before the second. -/
def Sooner (l : Ledger α) (a b : TimerId) : Prop :=
  ∃ s u, l.live.lookup a = some s ∧ l.live.lookup b = some u ∧ Timers.Precedes (a, s) (b, u)

/-- The answers a ledger gives and what becomes of it. Only the choice of a new handle is left
open: any that was not given out yet will do. -/
inductive Serves (l : Ledger α) : Request α → Reply α → Ledger α → Prop
  | schedule {id : TimerId} (callback : α) (interval : Nat) (once : Bool) (now : Nat)
      (hnew : id ∉ l.issued) :
      Serves l (.schedule callback interval once now) (.handle id)
        ⟨insert id l.issued, l.live.insert id ⟨callback, interval, once, now + interval⟩⟩
  | cancel {id : TimerId} (hlive : id ∈ l.live) :
      Serves l (.cancel id) (.flag true) ⟨l.issued, l.live.erase id⟩
  | cancelDead {id : TimerId} (hdead : id ∉ l.live) : Serves l (.cancel id) (.flag false) l
  | cancelAll : Serves l .cancelAll (.count l.live.keys.card) ⟨l.issued, ∅⟩
  | contains (id : TimerId) : Serves l (.contains id) (.flag (decide (id ∈ l.live))) l
  | due (now : Nat) {ids : List TimerId}
      (hmem : ∀ id, id ∈ ids ↔ ∃ timer, l.live.lookup id = some timer ∧ timer.deadline ≤ now)
      (hnodup : ids.Nodup) (hsorted : ids.Pairwise l.Sooner) :
      Serves l (.due now) (.handles ids) l
  | fireDead {id : TimerId} (now : Nat) (hdead : id ∉ l.live) :
      Serves l (.fire id now) (.callback none) l
  | fireOnce {id : TimerId} {timer : Timer α} (now : Nat)
      (hlive : l.live.lookup id = some timer) (honce : timer.once = true) :
      Serves l (.fire id now) (.callback (some timer.callback)) ⟨l.issued, l.live.erase id⟩
  | fireAgain {id : TimerId} {timer : Timer α} (now : Nat)
      (hlive : l.live.lookup id = some timer) (hagain : timer.once = false) :
      Serves l (.fire id now) (.callback (some timer.callback))
        ⟨l.issued, l.live.insert id { timer with deadline := now + timer.interval }⟩
  | active : Serves l .active (.count l.live.keys.card) l

end Ledger

namespace Timers

variable {α : Type}

/-! ### The map behind a table -/

theorem book_nodupKeys (t : Timers α) : (t.live.map Prod.toSigma).NodupKeys := by
  have h := t.live_nodup
  simpa [List.NodupKeys, List.keys, Function.comp_def] using h

/-- The timers of a table under their handles. -/
def book (t : Timers α) : Finmap fun _ : TimerId => Timer α :=
  (AList.mk (t.live.map Prod.toSigma) t.book_nodupKeys).toFinmap

theorem lookup_book (t : Timers α) (id : TimerId) : t.book.lookup id = t.find? id := by
  apply Option.ext
  intro timer
  have hmem : (⟨id, timer⟩ : Σ _ : TimerId, Timer α) ∈ t.live.map Prod.toSigma ↔
      (id, timer) ∈ t.live := by
    constructor
    · intro h
      obtain ⟨⟨other, found⟩, hfound, heq⟩ := List.mem_map.mp h
      cases heq
      exact hfound
    · exact List.mem_map_of_mem
  rw [book, Finmap.lookup_toFinmap, AList.lookup, ← mem_live, ← hmem]
  exact List.mem_dlookup_iff t.book_nodupKeys

theorem mem_book {t : Timers α} {id : TimerId} : id ∈ t.book ↔ t.contains id = true := by
  rw [contains, ← lookup_book, Finmap.lookup_isSome]

theorem card_book {t : Timers α} (ht : t.Tidy) : t.book.keys.card = t.active := by
  rw [ht.active, ← live_length]
  simp [book, Finmap.keys, Multiset.keys]

theorem book_eq {t : Timers α} {m : Finmap fun _ : TimerId => Timer α}
    (h : ∀ id, t.find? id = m.lookup id) : t.book = m := by
  apply Finmap.ext_lookup
  intro id
  rw [lookup_book, h]

theorem book_empty : (empty : Timers α).book = ∅ := by
  apply book_eq
  intro id
  simp [find?, empty]

theorem book_insert {t u : Timers α} {id : TimerId} {timer : Timer α}
    (h : ∀ other, u.find? other = if other = id then some timer else t.find? other) :
    u.book = t.book.insert id timer := by
  apply book_eq
  intro other
  rw [h]
  split
  · rename_i heq
    rw [heq, Finmap.lookup_insert]
  · rename_i hne
    rw [Finmap.lookup_insert_of_ne _ hne, lookup_book]

theorem book_erase {t u : Timers α} {id : TimerId}
    (h : ∀ other, u.find? other = if other = id then none else t.find? other) :
    u.book = t.book.erase id := by
  apply book_eq
  intro other
  rw [h]
  split
  · rename_i heq
    rw [heq, Finmap.lookup_erase]
  · rename_i hne
    rw [Finmap.lookup_erase_ne hne, lookup_book]

theorem book_cancelAll (t : Timers α) : t.cancelAll.2.book = ∅ := by
  apply book_eq
  intro id
  rw [find?_cancelAll, Finmap.lookup_empty]

/-! ### One request -/

/-- The ledger of a table, given the handles issued before. -/
def ledger (t : Timers α) (issued : Finset TimerId) : Ledger α := ⟨issued, t.book⟩

/-- The handle that a reply gives out. -/
def Reply.issues : Reply α → Finset TimerId
  | .handle id => {id}
  | _ => ∅

theorem due_sooner (t : Timers α) (now : Nat) (issued : Finset TimerId) :
    (t.due now).Pairwise (t.ledger issued).Sooner := by
  rw [due_eq, List.pairwise_map]
  apply List.Pairwise.imp_of_mem ?_ (t.queue_pairwise now)
  rintro ⟨a, s⟩ ⟨b, u⟩ ha hb hbefore
  refine ⟨s, u, ?_, ?_, hbefore⟩
  · exact (t.lookup_book a).trans (mem_queue.mp ha).1
  · exact (t.lookup_book b).trans (mem_queue.mp hb).1

theorem fire_serves (t : Timers α) (id : TimerId) (now : Nat) (issued : Finset TimerId) :
    (t.ledger issued).Serves (.fire id now) (.callback (t.fire id now).1)
      ((t.fire id now).2.ledger issued) := by
  rcases fire_cases t id now with ⟨hfound, hfire⟩ | ⟨timer, hfound, honce, hfire⟩ |
    ⟨timer, hfound, hagain, hfire⟩
  · have hdead : id ∉ (t.ledger issued).live := by
      intro hmem
      have hlive := mem_book.mp hmem
      simp [contains, hfound] at hlive
    simpa [hfire] using Ledger.Serves.fireDead now hdead
  · have hlive : (t.ledger issued).live.lookup id = some timer :=
      (t.lookup_book id).trans hfound
    have hbook := book_erase (find?_release_of_contains (contains_iff.mpr ⟨timer, hfound⟩))
    simpa [ledger, hfire, hbook] using Ledger.Serves.fireOnce now hlive honce
  · have hlive : (t.ledger issued).live.lookup id = some timer :=
      (t.lookup_book id).trans hfound
    have hbook := book_insert (find?_rearmed hfound now)
    simpa [ledger, hfire, hbook] using Ledger.Serves.fireAgain now hlive hagain

/-- A table answers a request as its ledger does, if the handle it gives out is a new one. -/
theorem serve_serves {t : Timers α} (ht : t.Tidy) (request : Request α) (issued : Finset TimerId)
    (hnew : Disjoint issued (t.serve request).1.issues) :
    (t.ledger issued).Serves request (t.serve request).1
      ((t.serve request).2.ledger (issued ∪ (t.serve request).1.issues)) := by
  cases request with
  | schedule callback interval once now =>
      have hfind := find?_schedule t callback interval once now ht
      have hfresh : (t.schedule callback interval once now).1 ∉ issued := by
        simpa [serve, Reply.issues] using hnew
      have hserves :=
        Ledger.Serves.schedule (l := t.ledger issued) callback interval once now hfresh
      simpa [serve, Reply.issues, ledger, book_insert hfind, Finset.union_comm] using hserves
  | cancel id =>
      have hbook := book_erase (find?_cancel t id)
      have hflag := cancel_flag t id
      cases hlive : t.contains id with
      | true =>
          have hserves := Ledger.Serves.cancel (l := t.ledger issued) (mem_book.mpr hlive)
          simpa [serve, Reply.issues, ledger, hflag, hlive, hbook] using hserves
      | false =>
          have hdead : id ∉ (t.ledger issued).live := by
            intro hmem
            simp [mem_book.mp hmem] at hlive
          have hsame : (t.cancel id).2 = t := by simp [cancel, hlive]
          simpa [serve, Reply.issues, ledger, hflag, hlive, hsame] using
            Ledger.Serves.cancelDead hdead
  | cancelAll =>
      have hcount : t.cancelAll.1 = (t.ledger issued).live.keys.card := (card_book ht).symm
      have hserves := Ledger.Serves.cancelAll (l := t.ledger issued)
      simpa [serve, Reply.issues, ledger, hcount, book_cancelAll] using hserves
  | contains id =>
      have hflag : t.contains id = decide (id ∈ (t.ledger issued).live) := by
        rw [Bool.eq_iff_iff, decide_eq_true_iff]
        exact mem_book.symm
      have hserves := Ledger.Serves.contains (l := t.ledger issued) id
      simpa [serve, Reply.issues, ledger, hflag] using hserves
  | due now =>
      have hmem : ∀ id, id ∈ t.due now ↔
          ∃ timer, (t.ledger issued).live.lookup id = some timer ∧ timer.deadline ≤ now := by
        intro id
        rw [mem_due, ← lookup_book]
        rfl
      have hserves := Ledger.Serves.due now hmem (t.due_nodup now) (t.due_sooner now issued)
      simpa [serve, Reply.issues] using hserves
  | fire id now =>
      simpa [serve, Reply.issues] using t.fire_serves id now issued
  | active =>
      have hcount : t.active = (t.ledger issued).live.keys.card := (card_book ht).symm
      have hserves := Ledger.Serves.active (l := t.ledger issued)
      simpa [serve, Reply.issues, hcount] using hserves

/-! ### Any number of requests -/

section Requests

variable (requests : Nat → Request α)

/-- The table after the first requests of a sequence. -/
def after : Nat → Timers α
  | 0 => .empty
  | n + 1 => ((after n).serve (requests n)).2

/-- The answer to a request of the sequence. -/
def reply (n : Nat) : Reply α :=
  ((after requests n).serve (requests n)).1

/-- The handles given out by the first requests. -/
def issued : Nat → Finset TimerId
  | 0 => ∅
  | n + 1 => issued n ∪ (reply requests n).issues

theorem after_history : History (after requests) where
  starts := rfl
  next := fun n => .inr ⟨requests n, rfl⟩

/-- A handle given out was not live before, and is live then. -/
theorem reply_handle {n : Nat} {id : TimerId} (h : reply requests n = .handle id) :
    (after requests n).contains id = false ∧ (after requests (n + 1)).contains id = true := by
  have htidy := (after_history requests).tidy n
  cases hrequest : requests n with
  | schedule callback interval once now =>
      simp only [reply, hrequest, serve, Reply.handle.injEq] at h
      simp only [after, hrequest, serve]
      constructor
      · rw [contains_eq_false, ← h]
        exact find?_schedule_handle _ callback interval once now htidy
      · rw [contains, find?_schedule _ callback interval once now htidy, if_pos h.symm]
        rfl
  | cancel id => simp [reply, hrequest, serve] at h
  | cancelAll => simp [reply, hrequest, serve] at h
  | contains id => simp [reply, hrequest, serve] at h
  | due now => simp [reply, hrequest, serve] at h
  | fire id now => simp [reply, hrequest, serve] at h
  | active => simp [reply, hrequest, serve] at h

theorem mem_issues {reply : Reply α} {id : TimerId} :
    id ∈ reply.issues ↔ reply = .handle id := by
  cases reply <;> simp [Reply.issues, eq_comm]

theorem mem_issued {n : Nat} {id : TimerId} :
    id ∈ issued requests n ↔ ∃ k < n, reply requests k = .handle id := by
  induction n with
  | zero => simp [issued]
  | succ n ih =>
      rw [issued, Finset.mem_union, ih, mem_issues]
      constructor
      · rintro (⟨k, hkn, hk⟩ | hn)
        · exact ⟨k, Nat.lt_succ_of_lt hkn, hk⟩
        · exact ⟨n, Nat.lt_succ_self n, hn⟩
      · rintro ⟨k, hkn, hk⟩
        rcases Nat.lt_or_eq_of_le (Nat.le_of_lt_succ hkn) with hlt | rfl
        · exact .inl ⟨k, hlt, hk⟩
        · exact .inr hk

/-- No handle is given out twice while no slot was given up too often. -/
theorem reply_distinct {first later : Nat} {id : TimerId} (h : first < later)
    (hbound : releases (after requests) id.slot (later + 1) < UInt32.size)
    (hfirst : reply requests first = .handle id) : reply requests later ≠ .handle id := by
  intro hlater
  have hlive := (reply_handle requests hfirst).2
  obtain ⟨hbefore, hagain⟩ := reply_handle requests hlater
  have hgone := (after_history requests).gone hlive h hbefore (Nat.le_succ later) hbound
  simp [hagain] at hgone

/-- What a user of a table sees of its first requests is what a ledger would have shown: it starts
blank, each request is answered by the rules of ledgers, and no handle is given out twice. -/
structure Refines (n : Nat) : Prop where
  /-- Before the first request the ledger is blank. -/
  starts : (after requests 0).ledger (issued requests 0) = .blank
  /-- Each request is answered as the ledger answers it, and changes the ledger accordingly. -/
  serves : ∀ k < n, ((after requests k).ledger (issued requests k)).Serves (requests k)
    (reply requests k) ((after requests (k + 1)).ledger (issued requests (k + 1)))
  /-- A handle differs from every handle given out before. -/
  distinct : ∀ j k, j < k → k < n → ∀ id, reply requests j = .handle id →
    reply requests k ≠ .handle id
  /-- At any time the number of active timers is the size of the map. -/
  active : ∀ k ≤ n, (after requests k).active = (after requests k).book.keys.card
  /-- Firing a handle that is not live leaves the table itself as it was, in all its parts. -/
  untouched : ∀ k < n, ∀ id now, requests k = .fire id now → id ∉ (after requests k).book →
    after requests (k + 1) = after requests k

/-- Whatever a table is asked, as long as no slot is given up so often that its generation wraps
around, it cannot be told from a ledger. -/
theorem refines_ledger (n : Nat)
    (hbound : ∀ slot, releases (after requests) slot n < UInt32.size) : Refines requests n where
  starts := by
    simp [after, issued, ledger, book_empty, Ledger.blank]
  serves := by
    intro k hk
    apply serve_serves ((after_history requests).tidy k) (requests k) (issued requests k)
    rw [Finset.disjoint_left]
    intro id hissued hnew
    obtain ⟨j, hj, hreply⟩ := (mem_issued requests).mp hissued
    have hmono := releases_mono (after requests) id.slot hk
    exact reply_distinct requests hj (Nat.lt_of_le_of_lt hmono (hbound id.slot)) hreply
      (mem_issues.mp hnew)
  distinct := by
    intro j k hjk hk id hreply
    have hmono := releases_mono (after requests) id.slot hk
    exact reply_distinct requests hjk (Nat.lt_of_le_of_lt hmono (hbound id.slot)) hreply
  active := by
    intro k _
    exact (card_book ((after_history requests).tidy k)).symm
  untouched := by
    intro k _ id now hrequest hdead
    have hstale : (after requests k).contains id = false := by
      cases hlive : (after requests k).contains id with
      | false => rfl
      | true => exact absurd (mem_book.mpr hlive) hdead
    simp [after, hrequest, serve, fire_stale hstale]

end Requests

/-- A slot that is given up and taken again, and a handle to its first timer that is kept. -/
def reuse (n : Nat) : Request Nat :=
  [.schedule 1 10 true 0, .cancel ⟨0, 0⟩, .schedule 2 10 false 0, .contains ⟨0, 0⟩,
    .fire ⟨0, 0⟩ 10, .due 10, .fire ⟨0, 1⟩ 12, .due 20, .cancel ⟨0, 0⟩, .cancelAll].getD n .active

theorem refines_ledger_reuse :
    (∀ slot, releases (after reuse) slot 11 < UInt32.size) ∧ Refines reuse 11 ∧
      (List.range 11).map (reply reuse) =
        [.handle ⟨0, 0⟩, .flag true, .handle ⟨0, 1⟩, .flag false, .callback none,
          .handles [⟨0, 1⟩], .callback (some 2), .handles [], .flag false, .count 1, .count 0] := by
  have hbound : ∀ slot, releases (after reuse) slot 11 < UInt32.size := by
    intro slot
    exact Nat.lt_of_le_of_lt (releases_le (after reuse) slot 11) (by decide)
  exact ⟨hbound, refines_ledger reuse 11 hbound, by decide +kernel⟩

end Timers

end TickHost
