import Mathlib.Algebra.GroupWithZero.Nat
import Mathlib.Data.Finset.Card
import Mathlib.Data.List.ReduceOption
import Tgrep.Data.FinMap

/-!
# Bursts of file system events

The watcher of a server receives events one by one and hands them on in bursts. A burst merges the
paths of its events, with a bound on the events and one on the paths. An event that does not fit
waits in a slot for the next burst; an event that alone has too many paths is handed on in pieces.

## Main definitions

* `WatchEvent`, `eventChangesIndex`, `eventIntroducesDir`: what the watcher is told.
* `FsEventBurst`, `FsEventBurst.tryPush`: the paths of the events so far.
* `receiveWatcherBurst`: one burst, from the slot and the channel.
* `Merged`, `Delivers`: what a burst has to do with the events it consumed.

## Main results

* `FsEventBurst.Merged.push`: an event adds its paths and its flag.
* `receiveWatcherBurst_spec`: one call.
* `bursts_lose_nothing`: repeated calls.

## Implementation notes

What a channel gives is a list: an event, or a timeout at any time; at its end all senders are
gone. Whether the time of a burst is over is asked before each event and is part of a call. A
burst also returns the events that it consumed, which the program does not keep. Paths that
compare equal are the same; lists are shorter than a word can count, so a sum of two lengths does
not saturate.
-/

namespace Tgrep.Watcher

open List

/-- What a modification is of. -/
inductive ModifyKind
  | any
  | data
  | metadata
  | name
  | other
  deriving DecidableEq

/-- What kind of event it is. -/
inductive EventKind
  | any
  | access
  | create
  | modify (kind : ModifyKind)
  | remove
  | other
  deriving DecidableEq

/-- An event of the file system. -/
structure WatchEvent (π : Type) where
  /-- Its kind. -/
  kind : EventKind
  /-- The paths that it names. -/
  paths : List π
  deriving DecidableEq

/-- A path of a burst. -/
structure CoalescedFsEvent (π : Type) where
  /-- The path. -/
  path : π
  /-- Whether a directory may be new there. -/
  introducesDir : Bool
  deriving DecidableEq

/-- The index can depend on the event. -/
def eventChangesIndex : EventKind → Bool
  | .create | .modify _ | .remove => true
  | _ => false

/-- The event can put a directory somewhere. -/
def eventIntroducesDir : EventKind → Bool
  | .create | .modify .name => true
  | _ => false

variable {π : Type} [DecidableEq π]

/-- The paths of the events of a burst. -/
structure FsEventBurst (π : Type) where
  /-- The paths, in the order in which they came. -/
  paths : List (CoalescedFsEvent π) := []
  /-- Where each of them is. -/
  pathIndices : FinMap π ℕ := .empty
  /-- The number of events. -/
  eventCount : ℕ := 0
  /-- The most events. -/
  eventCap : ℕ
  /-- The most paths. -/
  pathCap : ℕ

namespace FsEventBurst

/-- A path of an event. -/
def pushPath (introducesDir : Bool) (b : FsEventBurst π) (path : π) : FsEventBurst π :=
  match b.pathIndices.get? path with
  | some index =>
    { b with paths := b.paths.modify index fun c =>
        { c with introducesDir := c.introducesDir || introducesDir } }
  | none =>
    { b with
      pathIndices := b.pathIndices.insert path b.paths.length
      paths := b.paths ++ [⟨path, introducesDir⟩] }

/-- An event. -/
def push (b : FsEventBurst π) (event : WatchEvent π) : FsEventBurst π :=
  let b := { b with eventCount := b.eventCount + 1 }
  if eventChangesIndex event.kind then
    event.paths.foldl (pushPath (eventIntroducesDir event.kind)) b
  else b

/-- A burst begins with an event, which it takes whatever the bounds are. -/
def withLimits (first : WatchEvent π) (eventCap pathCap : ℕ) : FsEventBurst π :=
  ({ eventCap := eventCap, pathCap := pathCap } : FsEventBurst π).push first

/-- The paths of an event that the burst does not have. -/
def additionalPaths (b : FsEventBurst π) (event : WatchEvent π) : ℕ :=
  (event.paths.filter fun path => !b.pathIndices.contains path).toFinset.card

/-- One more event, or the event back if it does not fit. -/
def tryPush (b : FsEventBurst π) (event : WatchEvent π) :
    Except (WatchEvent π) (FsEventBurst π) :=
  if b.eventCount ≥ b.eventCap then .error event
  else if b.paths.length + b.additionalPaths event > b.pathCap then .error event
  else .ok (b.push event)

end FsEventBurst

/-- What the watcher returns. -/
inductive WatcherReceive (π : Type)
  /-- Nothing came for a while. -/
  | idle
  /-- Nothing will come any more. -/
  | disconnected
  | burst (paths : List (CoalescedFsEvent π)) (disconnected : Bool)
  deriving DecidableEq

/-- The bounds of a burst. -/
structure WatcherReceiveOptions where
  /-- The most events. -/
  eventCap : ℕ
  /-- The most paths. -/
  pathCap : ℕ

/-- What a channel will give: events and timeouts, and then that the senders are gone. -/
abbrev Channel (π : Type) := List (Option (WatchEvent π))

/-- The channel, and the slot for an event that has been received. -/
structure Queue (π : Type) where
  /-- The channel. -/
  rx : Channel π
  /-- The slot. -/
  pendingEvent : Option (WatchEvent π) := none

/-- What the loop of a burst leaves. -/
structure BurstEnd (π : Type) where
  /-- The burst. -/
  burst : FsEventBurst π
  /-- Whether the senders are gone. -/
  disconnected : Bool
  /-- The channel and the slot. -/
  queue : Queue π
  /-- The events that were merged. -/
  merged : List (WatchEvent π)

/-- Merge events until the time is over, nothing comes, or an event does not fit. -/
def burstLoop (expired : ℕ → Bool) :
    ℕ → Channel π → FsEventBurst π → List (WatchEvent π) → BurstEnd π
  | round, [], b, merged => ⟨b, !expired round, ⟨[], none⟩, merged⟩
  | round, item :: rx, b, merged =>
    if expired round then ⟨b, false, ⟨item :: rx, none⟩, merged⟩
    else
      match item with
      | none => ⟨b, false, ⟨rx, none⟩, merged⟩
      | some event =>
        match b.tryPush event with
        | .error event => ⟨b, false, ⟨rx, some event⟩, merged⟩
        | .ok b => burstLoop expired (round + 1) rx b (merged ++ [event])

/-- The event that a burst begins with, or what is returned without one. -/
def firstEvent (q : Queue π) : Except (WatcherReceive π × Queue π) (WatchEvent π × Channel π) :=
  match q.pendingEvent, q.rx with
  | some event, rx => .ok (event, rx)
  | none, some event :: rx => .ok (event, rx)
  | none, none :: rx => .error (.idle, ⟨rx, none⟩)
  | none, [] => .error (.disconnected, ⟨[], none⟩)

/-- Receive one burst. An event that has too many paths is a burst of its own, as far as it fits,
and the rest of it waits. The last component is what the burst consumed. -/
def receiveWatcherBurst (options : WatcherReceiveOptions) (expired : ℕ → Bool) (q : Queue π) :
    WatcherReceive π × Queue π × List (WatchEvent π) :=
  match firstEvent q with
  | .error (received, q) => (received, q, [])
  | .ok (first, rx) =>
    let pathCap := max options.pathCap 1
    if first.paths.length > pathCap then
      let piece := { first with paths := first.paths.take pathCap }
      (.burst (FsEventBurst.withLimits piece options.eventCap pathCap).paths false,
        ⟨rx, some { first with paths := first.paths.drop pathCap }⟩, [piece])
    else
      let e := burstLoop expired 0 rx (.withLimits first options.eventCap pathCap) [first]
      (.burst e.burst.paths e.disconnected, e.queue, e.merged)

/-! ## Merging -/

/-- The paths that an event names for the index, and whether it introduces a directory. -/
def WatchEvent.names (event : WatchEvent π) : List (π × Bool) :=
  if eventChangesIndex event.kind then
    event.paths.map fun path => (path, eventIntroducesDir event.kind)
  else []

variable {q : Queue π} (rx : Channel π) (event : WatchEvent π)

omit [DecidableEq π] in
/-- What it is to be named by an event. -/
lemma WatchEvent.mem_names {path : π} {flag : Bool} :
    (path, flag) ∈ event.names ↔
      eventChangesIndex event.kind = true ∧ path ∈ event.paths ∧
        flag = eventIntroducesDir event.kind := by
  rw [WatchEvent.names]
  split_ifs with hchanges
  · rw [mem_map]
    constructor
    · rintro ⟨path', hmem, heq⟩
      obtain ⟨rfl, rfl⟩ := Prod.mk.inj heq
      exact ⟨hchanges, hmem, rfl⟩
    · rintro ⟨_, hmem, rfl⟩
      exact ⟨path, hmem, rfl⟩
  · exact ⟨fun h => (nomatch h), fun h => absurd h.1 hchanges⟩

namespace FsEventBurst

/-- The burst has the paths that were named, each once, with the flags of all its names. -/
structure Merged (b : FsEventBurst π) (names : List (π × Bool)) : Prop where
  /-- Every path is where the map says. -/
  index : ∀ path i, b.pathIndices.get? path = some i ↔ (b.paths.map (·.path))[i]? = some path
  /-- The paths are those that were named. -/
  path : ∀ path, path ∈ b.paths.map (·.path) ↔ ∃ flag, (path, flag) ∈ names
  /-- A flag is set by any name. -/
  flag : ∀ c ∈ b.paths, c.introducesDir = true ↔ (c.path, true) ∈ names

variable {b : FsEventBurst π} {names : List (π × Bool)} {path : π} {introduces : Bool}

omit [DecidableEq π] in
/-- No path is there twice. -/
lemma Merged.nodup (h : b.Merged names) : (b.paths.map (·.path)).Nodup := by
  rw [nodup_iff_injective_getElem]
  rintro ⟨i, hi⟩ ⟨j, hj⟩ heq
  dsimp only at heq
  have hgeti := (h.index _ i).mpr (getElem?_eq_getElem hi)
  have hgetj := (h.index _ j).mpr (getElem?_eq_getElem hj)
  rw [heq, hgetj] at hgeti
  exact Fin.ext (Option.some.inj hgeti).symm

omit [DecidableEq π] in
/-- The map has the paths of the burst. -/
lemma Merged.contains_iff (h : b.Merged names) (path : π) :
    b.pathIndices.contains path = true ↔ path ∈ b.paths.map (·.path) := by
  rw [FinMap.contains, Option.isSome_iff_exists, mem_iff_getElem?]
  exact exists_congr fun i => h.index path i

omit [DecidableEq π] in
/-- Setting a flag keeps the paths. -/
lemma map_path_modify (l : List (CoalescedFsEvent π)) (index : ℕ) (introduces : Bool) :
    (l.modify index fun c => { c with introducesDir := c.introducesDir || introduces }).map
      (·.path) = l.map (·.path) := by
  refine ext_getElem? fun i => ?_
  rw [getElem?_map, getElem?_modify, getElem?_map]
  split_ifs with heq
  · cases l[i]? <;> rfl
  · cases l[i]? <;> rfl

/-- The path that is named is one of the burst already. -/
lemma Merged.pushPath_known (h : b.Merged names) {index : ℕ}
    (hget : b.pathIndices.get? path = some index) :
    (b.pushPath introduces path).Merged (names ++ [(path, introduces)]) := by
  have hpush : b.pushPath introduces path =
      { b with paths := b.paths.modify index fun c =>
          { c with introducesDir := c.introducesDir || introduces } } := by
    rw [pushPath, hget]
  have hat := (h.index path index).mp hget
  have hnodup := h.nodup
  rw [hpush]
  refine ⟨fun path' i => ?_, fun path' => ?_, fun c hc => ?_⟩
  · rw [map_path_modify]
    exact h.index path' i
  · rw [map_path_modify, h.path path']
    constructor
    · rintro ⟨flag, hmem⟩
      exact ⟨flag, mem_append_left _ hmem⟩
    · rintro ⟨flag, hmem⟩
      rcases mem_append.mp hmem with hmem | hmem
      · exact ⟨flag, hmem⟩
      · obtain ⟨rfl, rfl⟩ := Prod.mk.inj (mem_singleton.mp hmem)
        exact (h.path path').mp (mem_of_getElem? hat)
  · -- the path at the index is the one that is named, and it is at no other index
    obtain ⟨i, hi⟩ := mem_iff_getElem?.mp hc
    rw [getElem?_modify] at hi
    obtain ⟨c₀, hc₀, rfl⟩ := Option.map_eq_some_iff.mp hi
    have hold := h.flag c₀ (mem_of_getElem? hc₀)
    have hpath₀ : (b.paths.map (·.path))[i]? = some c₀.path := by
      rw [getElem?_map, hc₀, Option.map_some]
    by_cases heq : index = i
    · subst heq
      have hpath : path = c₀.path := Option.some.inj (hat.symm.trans hpath₀)
      rw [if_pos rfl]
      simp only [Bool.or_eq_true, hold, mem_append, mem_singleton, Prod.mk.injEq, hpath, true_and]
      exact or_congr_right eq_comm
    · have hpath : c₀.path ≠ path := by
        intro hpath
        have hget₀ := (h.index c₀.path i).mpr hpath₀
        rw [hpath, hget] at hget₀
        exact heq (Option.some.inj hget₀)
      rw [if_neg heq]
      simp only [hold, mem_append, mem_singleton, Prod.mk.injEq, hpath, false_and, or_false]

/-- The path that is named is new. -/
lemma Merged.pushPath_new (h : b.Merged names) (hget : b.pathIndices.get? path = none) :
    (b.pushPath introduces path).Merged (names ++ [(path, introduces)]) := by
  have hpush : b.pushPath introduces path =
      { b with
        pathIndices := b.pathIndices.insert path b.paths.length
        paths := b.paths ++ [⟨path, introduces⟩] } := by
    rw [pushPath, hget]
  have hnew : path ∉ b.paths.map (·.path) := by
    rw [← h.contains_iff, FinMap.contains, hget]
    exact Bool.false_ne_true
  rw [hpush]
  refine ⟨fun path' i => ?_, fun path' => ?_, fun c hc => ?_⟩
  · dsimp only
    rw [FinMap.get?_insert, map_append, map_singleton]
    by_cases hi : i < b.paths.length
    · rw [getElem?_append_left (by rwa [length_map]), ← h.index]
      split_ifs with hpath
      · subst hpath
        rw [hget]
        exact ⟨fun heq => absurd (Option.some.inj heq) (by omega), nofun⟩
      · exact Iff.rfl
    · rw [getElem?_append_right (by rw [length_map]; omega), length_map]
      have hout : b.pathIndices.get? path' ≠ some i := by
        rw [Ne, h.index, getElem?_eq_none (by rw [length_map]; omega)]
        exact nofun
      rcases Nat.eq_or_lt_of_le (not_lt.mp hi) with heq | hlt
      · subst heq
        rw [Nat.sub_self]
        split_ifs with hpath
        · exact ⟨fun _ => congrArg some hpath.symm, fun _ => rfl⟩
        · exact ⟨fun h => absurd h hout, fun h => absurd (Option.some.inj h).symm hpath⟩
      · rw [getElem?_eq_none (by rw [length_singleton]; omega)]
        split_ifs with hpath
        · exact ⟨fun h => absurd (Option.some.inj h) (by omega), nofun⟩
        · exact ⟨fun h => absurd h hout, nofun⟩
  · dsimp only
    rw [map_append, mem_append, h.path path', map_singleton, mem_singleton]
    simp only [mem_append, mem_singleton, Prod.mk.injEq, exists_or, exists_eq_right]
  · rcases mem_append.mp hc with hc | hc
    · have hpath : c.path ≠ path := fun hpath => hnew (hpath ▸ mem_map_of_mem hc)
      simp only [h.flag c hc, mem_append, mem_singleton, Prod.mk.injEq, hpath, false_and, or_false]
    · have hnone : ∀ flag, (path, flag) ∉ names := fun flag hmem =>
        hnew ((h.path path).mpr ⟨flag, hmem⟩)
      rw [mem_singleton.mp hc]
      simp only [mem_append, hnone, false_or, mem_singleton, Prod.mk.injEq, true_and]
      exact eq_comm

/-- A name is merged. -/
lemma Merged.pushPath (h : b.Merged names) (introduces : Bool) (path : π) :
    (b.pushPath introduces path).Merged (names ++ [(path, introduces)]) := by
  cases hget : b.pathIndices.get? path with
  | some index => exact h.pushPath_known hget
  | none => exact h.pushPath_new hget

/-- Names are merged. -/
lemma Merged.foldl_pushPath (introduces : Bool) (l : List π) :
    ∀ {b : FsEventBurst π} {names : List (π × Bool)}, b.Merged names →
      (l.foldl (FsEventBurst.pushPath introduces) b).Merged
        (names ++ l.map fun path => (path, introduces)) := by
  induction l with
  | nil =>
    intro b names h
    rwa [map_nil, append_nil, foldl_nil]
  | cons path l ih =>
    intro b names h
    rw [foldl_cons, map_cons, append_cons]
    exact ih (h.pushPath introduces path)

omit [DecidableEq π] in
/-- What a burst has been named does not depend on its counters. -/
lemma Merged.congr {b' : FsEventBurst π} (h : b.Merged names)
    (hpaths : b'.paths = b.paths) (hindices : b'.pathIndices = b.pathIndices) :
    b'.Merged names := by
  obtain ⟨hindex, hpath, hflag⟩ := h
  refine ⟨?_, ?_, ?_⟩
  · rwa [hpaths, hindices]
  · rwa [hpaths]
  · rwa [hpaths]

/-- An event adds its paths and its flag. -/
lemma Merged.push (h : b.Merged names) (event : WatchEvent π) :
    (b.push event).Merged (names ++ event.names) := by
  have hcount : ({ b with eventCount := b.eventCount + 1 } : FsEventBurst π).Merged names :=
    h.congr rfl rfl
  rw [FsEventBurst.push, WatchEvent.names]
  split_ifs with hchanges
  · exact hcount.foldl_pushPath _ _
  · rwa [append_nil]

omit [DecidableEq π] in
/-- A burst that has nothing yet. -/
lemma Merged.empty (eventCap pathCap : ℕ) :
    ({ eventCap := eventCap, pathCap := pathCap } : FsEventBurst π).Merged [] := by
  refine ⟨fun path i => ?_, fun path => ?_, fun c hc => ?_⟩
  · exact ⟨fun h => (nomatch h), fun h => (nomatch h)⟩
  · exact ⟨fun h => (nomatch h), fun ⟨_, h⟩ => (nomatch h)⟩
  · exact (nomatch hc)

/-- A burst has no more paths than were named. -/
lemma Merged.length_le {l : List π} (h : b.Merged names) (hl : ∀ name ∈ names, name.1 ∈ l) :
    b.paths.length ≤ l.length := by
  rw [← length_map (·.path), ← toFinset_card_of_nodup h.nodup]
  refine le_trans (Finset.card_le_card fun path hpath => ?_) (toFinset_card_le l)
  obtain ⟨flag, hmem⟩ := (h.path path).mp (mem_toFinset.mp hpath)
  exact mem_toFinset.mpr (hl _ hmem)

/-- An event adds no more paths than were counted. -/
lemma Merged.length_push_le (h : b.Merged names) (event : WatchEvent π) :
    (b.push event).paths.length ≤ b.paths.length + b.additionalPaths event := by
  have hpush := h.push event
  have hsub : ((b.push event).paths.map (·.path)).toFinset ⊆
      (b.paths.map (·.path)).toFinset ∪
        (event.paths.filter fun path => !b.pathIndices.contains path).toFinset := by
    intro path hpath
    obtain ⟨flag, hmem⟩ := (hpush.path path).mp (mem_toFinset.mp hpath)
    rw [Finset.mem_union, mem_toFinset, mem_toFinset, mem_filter]
    rcases mem_append.mp hmem with hmem | hmem
    · exact .inl ((h.path path).mpr ⟨flag, hmem⟩)
    · by_cases hold : path ∈ b.paths.map (·.path)
      · exact .inl hold
      · refine .inr ⟨(event.mem_names.mp hmem).2.1, ?_⟩
        rw [Bool.not_eq_true', ← Bool.not_eq_true, h.contains_iff]
        exact hold
  calc (b.push event).paths.length
      = ((b.push event).paths.map (·.path)).toFinset.card := by
        rw [toFinset_card_of_nodup hpush.nodup, length_map]
    _ ≤ _ := Finset.card_le_card hsub
    _ ≤ _ := Finset.card_union_le _ _
    _ = b.paths.length + b.additionalPaths event := by
        rw [toFinset_card_of_nodup h.nodup, length_map, additionalPaths]

/-- The counters and the bounds after an event. -/
lemma push_counters (b : FsEventBurst π) (event : WatchEvent π) :
    (b.push event).eventCount = b.eventCount + 1 ∧ (b.push event).eventCap = b.eventCap ∧
      (b.push event).pathCap = b.pathCap := by
  have hpath : ∀ (b : FsEventBurst π) (introduces : Bool) (path : π),
      (b.pushPath introduces path).eventCount = b.eventCount ∧
        (b.pushPath introduces path).eventCap = b.eventCap ∧
        (b.pushPath introduces path).pathCap = b.pathCap := by
    intro b introduces path
    rw [FsEventBurst.pushPath]
    cases b.pathIndices.get? path <;> exact ⟨rfl, rfl, rfl⟩
  have hfold : ∀ (introduces : Bool) (l : List π) (b : FsEventBurst π),
      (l.foldl (FsEventBurst.pushPath introduces) b).eventCount = b.eventCount ∧
        (l.foldl (FsEventBurst.pushPath introduces) b).eventCap = b.eventCap ∧
        (l.foldl (FsEventBurst.pushPath introduces) b).pathCap = b.pathCap := by
    intro introduces l
    induction l with
    | nil => exact fun b => ⟨rfl, rfl, rfl⟩
    | cons path l ih =>
      intro b
      obtain ⟨h₁, h₂, h₃⟩ := ih (b.pushPath introduces path)
      obtain ⟨h₁', h₂', h₃'⟩ := hpath b introduces path
      exact ⟨h₁.trans h₁', h₂.trans h₂', h₃.trans h₃'⟩
  rw [FsEventBurst.push]
  split_ifs
  · exact hfold _ _ _
  · exact ⟨rfl, rfl, rfl⟩

/-! ## The events of a burst -/

/-- The burst has merged the events, and they fit. -/
structure Holds (options : WatcherReceiveOptions) (b : FsEventBurst π)
    (merged : List (WatchEvent π)) : Prop where
  /-- The paths are those of the events. -/
  names : b.Merged (merged.flatMap (·.names))
  /-- The events are counted. -/
  count : b.eventCount = merged.length
  /-- There are not too many events. -/
  events_le : merged.length ≤ max 1 options.eventCap
  /-- There are not too many paths. -/
  paths_le : b.paths.length ≤ max options.pathCap 1
  /-- The bounds are those of the options. -/
  caps : b.eventCap = options.eventCap ∧ b.pathCap = max options.pathCap 1

variable {options : WatcherReceiveOptions} {merged : List (WatchEvent π)}

/-- The event that a burst begins with. -/
lemma withLimits_holds (options : WatcherReceiveOptions) {first : WatchEvent π}
    (hfirst : first.paths.length ≤ max options.pathCap 1) :
    (FsEventBurst.withLimits first options.eventCap (max options.pathCap 1)).Holds options
      [first] := by
  have hmerged := (Merged.empty (π := π) options.eventCap (max options.pathCap 1)).push first
  obtain ⟨hcount, hcaps⟩ := push_counters
    ({ eventCap := options.eventCap, pathCap := max options.pathCap 1 } : FsEventBurst π) first
  rw [nil_append] at hmerged
  refine ⟨?_, hcount, le_max_left _ _, ?_, hcaps⟩
  · rwa [flatMap_singleton]
  · refine le_trans (hmerged.length_le fun name hname => ?_) hfirst
    exact (first.mem_names.mp hname).2.1

/-- One more event that fits. -/
lemma Holds.tryPush {b' : FsEventBurst π} (h : b.Holds options merged) {event : WatchEvent π}
    (htry : b.tryPush event = .ok b') : b'.Holds options (merged ++ [event]) := by
  rw [FsEventBurst.tryPush] at htry
  split_ifs at htry with hevents hpaths
  cases htry
  obtain ⟨hcount, hcaps⟩ := push_counters b event
  refine ⟨?_, ?_, ?_, ?_, ?_⟩
  · rw [flatMap_append, flatMap_singleton]
    exact h.names.push event
  · rw [hcount, h.count, length_append, length_singleton]
  · have hcap := h.caps.1
    have hold := h.count
    rw [length_append, length_singleton]
    omega
  · have hle := h.names.length_push_le event
    have hcap := h.caps.2
    omega
  · rw [hcaps.1, hcaps.2]
    exact h.caps

end FsEventBurst

/-! ## One call -/

/-- The paths of events, each with the kind of its event. -/
def occurrences (events : List (WatchEvent π)) : List (EventKind × π) :=
  events.flatMap fun event => event.paths.map fun path => (event.kind, path)

omit [DecidableEq π] in
/-- The paths of one list of events after another. -/
lemma occurrences_append (l l' : List (WatchEvent π)) :
    occurrences (l ++ l') = occurrences l ++ occurrences l' := flatMap_append

namespace Queue

/-- The events that are still to be merged, in their order. -/
def events (q : Queue π) : List (WatchEvent π) := q.pendingEvent.toList ++ q.rx.reduceOption

/-- A bound on the calls until nothing is left: every path, every event and every timeout. -/
def size (q : Queue π) : ℕ :=
  (q.events.map fun event => event.paths.length).sum + q.pendingEvent.toList.length + q.rx.length

end Queue

/-- What a burst has to do with the events that it consumed. -/
structure Delivers (options : WatcherReceiveOptions) (paths : List (CoalescedFsEvent π))
    (consumed : List (WatchEvent π)) : Prop where
  /-- The paths are those of the events that the index depends on. -/
  path : ∀ path, (∃ c ∈ paths, c.path = path) ↔
    ∃ event ∈ consumed, eventChangesIndex event.kind = true ∧ path ∈ event.paths
  /-- The flag says that one of the events that name the path creates or renames. -/
  flag : ∀ c ∈ paths, c.introducesDir = true ↔
    ∃ event ∈ consumed, eventIntroducesDir event.kind = true ∧ c.path ∈ event.paths
  /-- No path is there twice. -/
  nodup : (paths.map (·.path)).Nodup
  /-- There are not too many paths. -/
  paths_le : paths.length ≤ options.pathCap
  /-- There are not too many events. -/
  events_le : consumed.length ≤ max 1 options.eventCap

/-- The index depends on what introduces a directory. -/
lemma eventChangesIndex_of_introduces {kind : EventKind} (h : eventIntroducesDir kind = true) :
    eventChangesIndex kind = true := by
  cases kind <;> first | rfl | exact absurd h Bool.false_ne_true

variable {options : WatcherReceiveOptions} {merged : List (WatchEvent π)} {b : FsEventBurst π}

omit [DecidableEq π] in
/-- A burst that holds its events delivers them. -/
lemma FsEventBurst.Holds.delivers (h : b.Holds options merged) (hcap : 1 ≤ options.pathCap) :
    Delivers options b.paths merged := by
  refine ⟨fun path => ?_, fun c hc => ?_, h.names.nodup, ?_, h.events_le⟩
  · rw [← mem_map, h.names.path path]
    constructor
    · rintro ⟨flag, hmem⟩
      obtain ⟨event, hevent, hname⟩ := List.mem_flatMap.mp hmem
      obtain ⟨hchanges, hpath, -⟩ := event.mem_names.mp hname
      exact ⟨event, hevent, hchanges, hpath⟩
    · rintro ⟨event, hevent, hchanges, hpath⟩
      exact ⟨_, List.mem_flatMap.mpr ⟨event, hevent, event.mem_names.mpr ⟨hchanges, hpath, rfl⟩⟩⟩
  · rw [h.names.flag c hc, mem_flatMap]
    refine exists_congr fun event => and_congr_right fun _ => ?_
    rw [event.mem_names]
    constructor
    · rintro ⟨-, hpath, hflag⟩
      exact ⟨hflag.symm, hpath⟩
    · rintro ⟨hflag, hpath⟩
      exact ⟨eventChangesIndex_of_introduces hflag, hpath, hflag.symm⟩
  · have hle := h.paths_le
    rwa [max_eq_left hcap] at hle

omit [DecidableEq π] in
/-- The size of a queue with an empty slot. -/
lemma Queue.size_rx : (⟨rx, none⟩ : Queue π).size =
    (rx.reduceOption.map fun event => event.paths.length).sum + rx.length := rfl

omit [DecidableEq π] in
/-- The size of a queue with an event in the slot. -/
lemma Queue.size_pending :
    (⟨rx, some event⟩ : Queue π).size =
      (⟨rx, none⟩ : Queue π).size + event.paths.length + 1 := by
  simp only [Queue.size, Queue.events, Option.toList_some, singleton_append, map_cons,
    sum_cons, length_singleton, Option.toList_none, nil_append, length_nil]
  omega

omit [DecidableEq π] in
/-- The size of a queue before a timeout. -/
lemma Queue.size_timeout :
    (⟨none :: rx, none⟩ : Queue π).size = (⟨rx, none⟩ : Queue π).size + 1 := by
  rw [Queue.size_rx, Queue.size_rx, reduceOption_cons_of_none, length_cons, add_assoc]

omit [DecidableEq π] in
/-- The size of a queue before an event. -/
lemma Queue.size_event :
    (⟨some event :: rx, none⟩ : Queue π).size =
      (⟨rx, none⟩ : Queue π).size + event.paths.length + 1 := by
  rw [Queue.size_rx, Queue.size_rx, reduceOption_cons_of_some, map_cons, sum_cons,
    length_cons]
  omega

/-- The loop of a burst. -/
lemma burstLoop_spec (expired : ℕ → Bool) (rx : Channel π) :
    ∀ (round : ℕ) (b : FsEventBurst π) (merged : List (WatchEvent π)),
      b.Holds options merged →
        let e := burstLoop expired round rx b merged
        e.burst.Holds options e.merged ∧
          merged ++ (⟨rx, none⟩ : Queue π).events = e.merged ++ e.queue.events ∧
          e.queue.size ≤ (⟨rx, none⟩ : Queue π).size ∧
          (e.disconnected = true → e.queue = ⟨[], none⟩) := by
  induction rx with
  | nil =>
    intro round b merged h
    exact ⟨h, rfl, le_rfl, fun _ => rfl⟩
  | cons item rx ih =>
    intro round b merged h e
    have he : e = burstLoop expired round (item :: rx) b merged := rfl
    rw [burstLoop.eq_def] at he
    dsimp only at he
    rw [he]
    clear_value e
    split_ifs
    · exact ⟨h, rfl, le_rfl, nofun⟩
    cases item with
    | none =>
      refine ⟨h, rfl, ?_, nofun⟩
      rw [Queue.size_timeout]
      exact Nat.le_succ _
    | some event =>
      dsimp only
      cases htry : b.tryPush event with
      | error event' =>
        -- the event that does not fit is the first of those that are left
        obtain rfl : event' = event := by
          rw [FsEventBurst.tryPush] at htry
          split_ifs at htry <;> cases htry <;> rfl
        refine ⟨h, rfl, ?_, nofun⟩
        rw [Queue.size_pending, Queue.size_event]
      | ok b' =>
        obtain ⟨hholds, hevents, hsize, hdisconnected⟩ :=
          ih (round + 1) b' (merged ++ [event]) (h.tryPush htry)
        refine ⟨hholds, ?_, ?_, hdisconnected⟩
        · rw [← hevents, append_assoc]
          rfl
        · refine hsize.trans ?_
          rw [Queue.size_event]
          omega

/-- What one call does. -/
structure CallSpec (options : WatcherReceiveOptions) (q : Queue π) (received : WatcherReceive π)
    (q' : Queue π) (consumed : List (WatchEvent π)) : Prop where
  /-- A burst delivers what it consumed. -/
  burst : ∀ paths disconnected, received = .burst paths disconnected →
    Delivers options paths consumed
  /-- Without a burst nothing is consumed. -/
  nothing : received = .idle ∨ received = .disconnected → consumed = []
  /-- Nothing is lost and nothing is made up. -/
  kept : occurrences q.events = occurrences consumed ++ occurrences q'.events
  /-- When the senders are reported to be gone, nothing is left. -/
  disconnected : received = .disconnected ∨ (∃ paths, received = .burst paths true) →
    q'.events = []
  /-- A call that returns anything else has less to do afterwards. -/
  size : received ≠ .disconnected → q'.size < q.size

omit [DecidableEq π] in
/-- Where the first event comes from. -/
lemma firstEvent_ok {first : WatchEvent π} {rx : Channel π} (h : firstEvent q = .ok (first, rx)) :
    q.events = first :: (⟨rx, none⟩ : Queue π).events ∧
      q.size = (⟨rx, none⟩ : Queue π).size + first.paths.length + 1 := by
  obtain ⟨queued, pending⟩ := q
  cases pending with
  | some event =>
    cases h
    exact ⟨rfl, Queue.size_pending _ _⟩
  | none =>
    cases queued with
    | nil => cases h
    | cons item queued =>
      cases item with
      | none => cases h
      | some event =>
        cases h
        exact ⟨rfl, Queue.size_event _ _⟩

omit [DecidableEq π] in
/-- Without a first event the call is over. -/
lemma firstEvent_error {q' : Queue π} {received : WatcherReceive π}
    (h : firstEvent q = .error (received, q')) :
    q'.events = q.events ∧
      (received = .idle ∧ q'.size < q.size ∨ received = .disconnected ∧ q.events = []) := by
  obtain ⟨queued, pending⟩ := q
  cases pending with
  | some event => cases h
  | none =>
    cases queued with
    | nil =>
      cases h
      exact ⟨rfl, .inr ⟨rfl, rfl⟩⟩
    | cons item queued =>
      cases item with
      | some event => cases h
      | none =>
        cases h
        refine ⟨rfl, .inl ⟨rfl, ?_⟩⟩
        rw [Queue.size_timeout]
        exact Nat.lt_succ_self _

omit [DecidableEq π] in
/-- An event has the paths of its two pieces. -/
lemma occurrences_split (n : ℕ) :
    occurrences [event] = occurrences [{ event with paths := event.paths.take n }] ++
      occurrences [{ event with paths := event.paths.drop n }] := by
  simp only [occurrences, flatMap_singleton]
  rw [← map_append, take_append_drop]

/-- An event that has too many paths. -/
lemma oversized_spec (hcap : 1 ≤ options.pathCap) {first : WatchEvent π} {rx : Channel π}
    (hfirst : firstEvent q = .ok (first, rx)) (hsize : max options.pathCap 1 < first.paths.length) :
    let piece := { first with paths := first.paths.take (max options.pathCap 1) }
    CallSpec options q
      (.burst (FsEventBurst.withLimits piece options.eventCap (max options.pathCap 1)).paths false)
      ⟨rx, some { first with paths := first.paths.drop (max options.pathCap 1) }⟩ [piece] := by
  intro piece
  obtain ⟨hevents, hq⟩ := firstEvent_ok hfirst
  have hpiece : piece.paths.length ≤ max options.pathCap 1 := length_take_le _ _
  have hholds := FsEventBurst.withLimits_holds options hpiece
  refine ⟨?_, nofun, ?_, ?_, fun _ => ?_⟩
  · intro paths disconnected heq
    cases heq
    exact hholds.delivers hcap
  · have hrest : ∀ event : WatchEvent π, (⟨rx, some event⟩ : Queue π).events =
        [event] ++ (⟨rx, none⟩ : Queue π).events := fun _ => rfl
    rw [hevents, ← singleton_append, occurrences_append, hrest, occurrences_append,
      ← append_assoc, occurrences_split first (max options.pathCap 1)]
  · rintro (h | ⟨paths, h⟩) <;> cases h
  · rw [hq, Queue.size_pending, length_drop]
    have hone := le_max_right options.pathCap 1
    omega

/-- One call. -/
lemma receiveWatcherBurst_spec (hcap : 1 ≤ options.pathCap) (expired : ℕ → Bool) (q : Queue π) :
    CallSpec options q (receiveWatcherBurst options expired q).1
      (receiveWatcherBurst options expired q).2.1
      (receiveWatcherBurst options expired q).2.2 := by
  rw [receiveWatcherBurst]
  cases hfirst : firstEvent q with
  | error result =>
    obtain ⟨received, q'⟩ := result
    obtain ⟨hevents, hcase⟩ := firstEvent_error hfirst
    dsimp only
    refine ⟨?_, fun _ => rfl, ?_, ?_, ?_⟩
    · rintro paths disconnected rfl
      rcases hcase with ⟨h, -⟩ | ⟨h, -⟩ <;> cases h
    · rw [hevents]
      rfl
    · intro h
      rcases hcase with ⟨rfl, -⟩ | ⟨-, hnil⟩
      · rcases h with h | ⟨paths, h⟩ <;> cases h
      · rw [hevents, hnil]
    · intro hne
      rcases hcase with ⟨-, hlt⟩ | ⟨h, -⟩
      · exact hlt
      · exact absurd h hne
  | ok result =>
    obtain ⟨first, rx⟩ := result
    dsimp only
    split_ifs with hsize
    · exact oversized_spec hcap hfirst hsize
    · obtain ⟨hevents, hq⟩ := firstEvent_ok hfirst
      obtain ⟨hholds, hkept, hle, hdisconnected⟩ := burstLoop_spec expired rx 0 _ [first]
        (FsEventBurst.withLimits_holds options (not_lt.mp hsize))
      refine ⟨?_, nofun, ?_, ?_, fun _ => ?_⟩
      · intro paths disconnected heq
        cases heq
        exact hholds.delivers hcap
      · rw [← occurrences_append, ← hkept, hevents]
        rfl
      · rintro (h | ⟨paths, h⟩)
        · cases h
        · injection h with _ hflag
          rw [hdisconnected hflag]
          rfl
      · dsimp only
        rw [hq]
        omega

/-! ## Repeated calls -/

/-- What a call returns and what it consumes. -/
structure Call (π : Type) where
  /-- What is returned. -/
  received : WatcherReceive π
  /-- The events that it consumes. -/
  consumed : List (WatchEvent π)
  deriving DecidableEq

/-- Call again and again, each time with its own deadline. -/
def receiveAll (options : WatcherReceiveOptions) :
    List (ℕ → Bool) → Queue π → List (Call π) × Queue π
  | [], q => ([], q)
  | expired :: calls, q =>
    let (received, q, consumed) := receiveWatcherBurst options expired q
    let (rest, q) := receiveAll options calls q
    (⟨received, consumed⟩ :: rest, q)

/-- The first of the calls. -/
lemma receiveAll_cons (options : WatcherReceiveOptions) (expired : ℕ → Bool)
    (calls : List (ℕ → Bool)) (q : Queue π) :
    receiveAll options (expired :: calls) q =
      (⟨(receiveWatcherBurst options expired q).1, (receiveWatcherBurst options expired q).2.2⟩ ::
        (receiveAll options calls (receiveWatcherBurst options expired q).2.1).1,
        (receiveAll options calls (receiveWatcherBurst options expired q).2.1).2) := rfl

/-- Bursts lose nothing. Whatever the watcher receives, whenever nothing comes for a while and
whenever the time of a burst is over: every burst delivers exactly the events that it consumed;
calls without a burst consume nothing; what has been consumed and what is left are, path by path
and in order, what there was; when a call reports that the senders are gone, everything has been
consumed; and that is reported after enough calls.

**Proof sketch.** By induction on the calls, with what one call does. -/
theorem bursts_lose_nothing (options : WatcherReceiveOptions) (hcap : 1 ≤ options.pathCap)
    (calls : List (ℕ → Bool)) :
    ∀ q : Queue π,
      let r := receiveAll options calls q
      (∀ call ∈ r.1, ∀ paths disconnected, call.received = .burst paths disconnected →
        Delivers options paths call.consumed) ∧
      (∀ call ∈ r.1, call.received = .idle ∨ call.received = .disconnected →
        call.consumed = []) ∧
      occurrences q.events = occurrences (r.1.flatMap (·.consumed)) ++ occurrences r.2.events ∧
      (∀ i call, r.1[i]? = some call →
        call.received = .disconnected ∨ (∃ paths, call.received = .burst paths true) →
        occurrences q.events = occurrences ((r.1.take (i + 1)).flatMap (·.consumed))) ∧
      (q.size < calls.length → ∃ call ∈ r.1, call.received = .disconnected) := by
  induction calls with
  | nil =>
    intro q
    exact ⟨fun _ h => (nomatch h), fun _ h => (nomatch h), rfl, fun _ _ h => (nomatch h),
      fun h => (nomatch h)⟩
  | cons expired calls ih =>
    intro q
    have hcall := receiveWatcherBurst_spec hcap expired q
    rw [receiveAll_cons]
    obtain ⟨hdelivers, hnothing, hkept, hdisconnected, hsize⟩ :=
      ih (receiveWatcherBurst options expired q).2.1
    refine ⟨?_, ?_, ?_, ?_, ?_⟩
    · intro call hmem
      rcases List.mem_cons.mp hmem with rfl | hmem
      · exact hcall.burst
      · exact hdelivers call hmem
    · intro call hmem
      rcases List.mem_cons.mp hmem with rfl | hmem
      · exact hcall.nothing
      · exact hnothing call hmem
    · rw [hcall.kept, hkept, flatMap_cons, occurrences_append, append_assoc]
    · intro i call hget hgone
      rw [hcall.kept, take_succ_cons, flatMap_cons, occurrences_append]
      cases i with
      | zero =>
        cases hget
        rw [hcall.disconnected hgone]
        rfl
      | succ i => rw [hdisconnected i call hget hgone]
    · intro hlt
      by_cases hgone : (receiveWatcherBurst options expired q).1 = .disconnected
      · exact ⟨_, mem_cons_self, hgone⟩
      · have hdecrease := hcall.size hgone
        rw [length_cons] at hlt
        obtain ⟨call, hmem, hreceived⟩ := hsize (by omega)
        exact ⟨call, mem_cons_of_mem _ hmem, hreceived⟩

/-- A directory with three paths, of which a burst takes two, then nothing for a while, and then a
write to one of them. -/
def threePaths : Queue ℕ :=
  { rx := [some ⟨.create, [1, 2, 3]⟩, none, some ⟨.modify .data, [3]⟩] }

/-- The directory comes in two bursts and the write in a third; the fourth call reports the end. -/
theorem bursts_lose_nothing_threePaths :
    (receiveAll ⟨10, 2⟩ (List.replicate 8 fun _ => false) threePaths).1.map (·.received) =
        [.burst [⟨1, true⟩, ⟨2, true⟩] false, .burst [⟨3, true⟩] false,
          .burst [⟨3, false⟩] true, .disconnected, .disconnected, .disconnected, .disconnected,
          .disconnected] ∧
      (∃ call ∈ (receiveAll ⟨10, 2⟩ (List.replicate 8 fun _ => false) threePaths).1,
        call.received = .disconnected) :=
  ⟨by decide +kernel,
    (bursts_lose_nothing ⟨10, 2⟩ (by decide) (List.replicate 8 fun _ => false)
      threePaths).2.2.2.2 (by decide)⟩

end Tgrep.Watcher
