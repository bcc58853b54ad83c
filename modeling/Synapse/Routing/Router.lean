import Mathlib.Data.List.Nodup
import Mathlib.Logic.Function.Basic
import Synapse.Routing.FastPath

/-!
# The topic router

`TopicRouter` keeps one compiled filter per subscriber id in a flat vector, which `subscribe` and
`unsubscribe` replace as a whole, so that a route works on the vector it read. Subscribing again
replaces the filter in its place; that an id occurs once is part of the type.

What a router is for is said by a table from ids to filters, `filterOf`, and by the meaning of a
filter on lists of levels, `accepts`. `route_run` relates the two: over any run of subscriptions
with proper filters, a route returns each id whose filter matches, once.
-/

namespace Synapse

open Wildcard List Function Option

/-- The subscribers and their compiled filters. -/
structure TopicRouter where
  subs : List (String × CompiledFilter)
  nodup : (subs.map Prod.fst).Nodup

namespace TopicRouter

def new : TopicRouter := ⟨[], List.nodup_nil⟩

/-- Replace the filter in the first slot with this id, if there is one. -/
def replaceSlot (id : String) (compiled : CompiledFilter) :
    List (String × CompiledFilter) → Option (List (String × CompiledFilter))
  | [] => none
  | (sid, c) :: rest =>
    if sid = id then some ((sid, compiled) :: rest)
    else (replaceSlot id compiled rest).map ((sid, c) :: ·)

variable {subs : List (String × CompiledFilter)} {compiled : CompiledFilter} {id : String}

theorem replaceSlot_eq_none : replaceSlot id compiled subs = none ↔ id ∉ subs.map Prod.fst := by
  induction subs with
  | nil => simp [replaceSlot]
  | cons entry rest ih =>
    obtain ⟨sid, c⟩ := entry
    rw [replaceSlot, map_cons, mem_cons, not_or, ← ih]
    by_cases h : sid = id
    · simp [h]
    · simp [h, Ne.symm h]

theorem map_fst_replaceSlot {next : List (String × CompiledFilter)}
    (h : replaceSlot id compiled subs = some next) : next.map Prod.fst = subs.map Prod.fst := by
  induction subs generalizing next with
  | nil => simp [replaceSlot] at h
  | cons entry rest ih =>
    obtain ⟨sid, c⟩ := entry
    rw [replaceSlot] at h
    split_ifs at h with hid
    · cases h
      rfl
    · obtain ⟨rest', hrest, rfl⟩ := map_eq_some_iff.mp h
      rw [map_cons, map_cons, ih hrest]

def subscribed (subs : List (String × CompiledFilter)) (id filter : String) :
    List (String × CompiledFilter) :=
  match replaceSlot id (compile filter slash) subs with
  | some next => next
  | none => subs ++ [(id, compile filter slash)]

theorem nodup_subscribed (h : (subs.map Prod.fst).Nodup) (id filter : String) :
    ((subscribed subs id filter).map Prod.fst).Nodup := by
  rw [subscribed]
  cases hslot : replaceSlot id (compile filter slash) subs with
  | some next => rwa [map_fst_replaceSlot hslot]
  | none =>
    rw [map_append, map_singleton, ← concat_eq_append]
    exact h.concat (replaceSlot_eq_none.mp hslot)

/-- Subscribe `id` to `filter`, replacing any existing filter for that id. -/
def subscribe (r : TopicRouter) (id filter : String) : TopicRouter :=
  ⟨subscribed r.subs id filter, nodup_subscribed r.nodup id filter⟩

def unsubscribe (r : TopicRouter) (id : String) : TopicRouter where
  subs := r.subs.filter (·.1 ≠ id)
  nodup := r.nodup.sublist (List.filter_sublist.map Prod.fst)

def route (r : TopicRouter) (topic : String) : List String :=
  (r.subs.filter fun entry ↦ entry.2.matchesLevels (splitLevels (asBytes topic) slash)).map
    Prod.fst

/-! ## What an operation does to the table -/

section Table

variable {r : TopicRouter} {id x filter : String} {c : CompiledFilter}

theorem mem_replaceSlot {next : List (String × CompiledFilter)} (hnd : (subs.map Prod.fst).Nodup)
    (h : replaceSlot id compiled subs = some next) :
    (x, c) ∈ next ↔ if x = id then c = compiled else (x, c) ∈ subs := by
  induction subs generalizing next with
  | nil => simp [replaceSlot] at h
  | cons entry rest ih =>
    obtain ⟨sid, d⟩ := entry
    rw [map_cons, nodup_cons] at hnd
    rw [replaceSlot] at h
    split_ifs at h with hid
    · cases h
      subst hid
      by_cases hx : x = sid
      · subst hx
        have hrest : (x, c) ∉ rest := fun hmem ↦ hnd.1 (mem_map.mpr ⟨_, hmem, rfl⟩)
        simp [hrest]
      · simp [hx]
    · obtain ⟨rest', hrest, rfl⟩ := map_eq_some_iff.mp h
      rw [mem_cons, ih hnd.2 hrest]
      by_cases hx : x = id
      · subst hx
        simp [Ne.symm hid]
      · simp [hx]

theorem mem_subscribe : (x, c) ∈ (r.subscribe id filter).subs ↔
      if x = id then c = compile filter slash else (x, c) ∈ r.subs := by
  change (x, c) ∈ subscribed r.subs id filter ↔ _
  rw [subscribed]
  cases hslot : replaceSlot id (compile filter slash) r.subs with
  | some next => exact mem_replaceSlot r.nodup hslot
  | none =>
    have hnot := replaceSlot_eq_none.mp hslot
    by_cases hx : x = id
    · subst hx
      have hmem : (x, c) ∉ r.subs := fun hmem ↦ hnot (mem_map_of_mem hmem)
      simp [hmem]
    · simp [hx]

theorem mem_unsubscribe : (x, c) ∈ (r.unsubscribe id).subs ↔ x ≠ id ∧ (x, c) ∈ r.subs := by
  rw [unsubscribe, mem_filter, decide_eq_true_iff, and_comm]

end Table

/-! ## The part of a table under some ids -/

section Part

variable {own : String → Bool} {id : String} {next : List (String × CompiledFilter)}

theorem replaceSlot_filter (hown : own id = true) (compiled : CompiledFilter)
    (subs : List (String × CompiledFilter)) :
    replaceSlot id compiled (subs.filter fun entry ↦ own entry.1) =
      (replaceSlot id compiled subs).map fun next ↦ next.filter fun entry ↦ own entry.1 := by
  induction subs with
  | nil => rfl
  | cons entry subs ih =>
    obtain ⟨sid, c⟩ := entry
    rw [filter_cons, replaceSlot.eq_def id compiled ((sid, c) :: subs)]
    dsimp only
    by_cases hsid : sid = id
    · subst hsid
      simp [hown, replaceSlot]
    rw [if_neg hsid]
    split_ifs with hoth
    · rw [replaceSlot, if_neg hsid, ih, Option.map_map, Option.map_map]
      simp [comp_def, hoth]
    · rw [ih, Option.map_map]
      simp [comp_def, hoth]

theorem filter_of_replaceSlot (hown : own id = false)
    (h : replaceSlot id compiled subs = some next) :
    (next.filter fun entry ↦ own entry.1) = subs.filter fun entry ↦ own entry.1 := by
  induction subs generalizing next with
  | nil => cases h
  | cons entry subs ih =>
    obtain ⟨sid, c⟩ := entry
    rw [replaceSlot] at h
    split_ifs at h with hsid
    · cases h
      simp [hsid, hown]
    · obtain ⟨rest, hrest, rfl⟩ := map_eq_some_iff.mp h
      rw [filter_cons, filter_cons, ih hrest]

theorem filter_subscribed (own : String → Bool) (subs : List (String × CompiledFilter))
    (id filter : String) :
    ((subscribed subs id filter).filter fun entry ↦ own entry.1) =
      if own id then subscribed (subs.filter fun entry ↦ own entry.1) id filter
      else subs.filter fun entry ↦ own entry.1 := by
  cases hown : own id with
  | true =>
    rw [if_pos rfl, subscribed, subscribed, replaceSlot_filter hown]
    cases replaceSlot id (compile filter slash) subs with
    | none => simp [hown]
    | some next => rfl
  | false =>
    rw [if_neg Bool.false_ne_true, subscribed]
    cases hslot : replaceSlot id (compile filter slash) subs with
    | none => simp [hown]
    | some next => exact filter_of_replaceSlot hown hslot

theorem filter_unsubscribe (hown : own id = false) (r : TopicRouter) :
    ((r.unsubscribe id).subs.filter fun entry ↦ own entry.1) =
      r.subs.filter fun entry ↦ own entry.1 := by
  refine (List.filter_filter ..).trans (filter_congr fun entry _ ↦ ?_)
  by_cases hid : entry.1 = id
  · simp [hid, hown]
  · simp [hid]

end Part

end TopicRouter

/-! ## Runs -/

inductive RouterOp
  | subscribe (id filter : String)
  | unsubscribe (id : String)
deriving DecidableEq, Repr

/-- A filter or topic that is not empty and does not end in a separator. -/
def Proper (s : String) : Prop := s ≠ "" ∧ ¬EndsInSlash s

instance (s : String) : Decidable (Proper s) := inferInstanceAs (Decidable (_ ∧ _))

/-- The filter the operation subscribes to, if any, is proper. -/
def RouterOp.Proper : RouterOp → Prop
  | .subscribe _ filter => Synapse.Proper filter
  | .unsubscribe _ => True

instance : (op : RouterOp) → Decidable op.Proper
  | .subscribe _ filter => inferInstanceAs (Decidable (Synapse.Proper filter))
  | .unsubscribe _ => isTrue trivial

namespace TopicRouter

def perform (r : TopicRouter) : RouterOp → TopicRouter
  | .subscribe id filter => r.subscribe id filter
  | .unsubscribe id => r.unsubscribe id

def run (ops : List RouterOp) : TopicRouter := ops.foldl perform new

/-- The table of current filters after one operation. -/
def record (table : String → Option String) : RouterOp → String → Option String
  | .subscribe id filter => Function.update table id (some filter)
  | .unsubscribe id => Function.update table id none

/-- The most recent filter of each id that is subscribed. -/
def filterOf (ops : List RouterOp) : String → Option String := ops.foldl record fun _ ↦ none

def levelList (s : String) : List (List UInt8) := (asBytes s).splitOn slash

/-- The meaning of a filter: `+` stands for one level, `#` for any number of them, and any other
level for itself. -/
def Matches (filter topic : String) : Prop :=
  accepts ((levelList filter).map segment) (levelList topic) = true

/-- The router holds the compiled filters of the table. -/
def Holds (r : TopicRouter) (table : String → Option String) : Prop :=
  ∀ x c, (x, c) ∈ r.subs ↔ ∃ filter, table x = some filter ∧ c = compile filter slash

theorem holds_new : new.Holds fun _ ↦ none := by
  intro x c
  simp [new]

variable {table : String → Option String} {r : TopicRouter}

theorem Holds.perform (h : r.Holds table) (op : RouterOp) :
    (r.perform op).Holds (record table op) := by
  intro x c
  cases op with
  | subscribe id filter =>
    rw [TopicRouter.perform, mem_subscribe, record]
    by_cases hx : x = id
    · subst hx
      simp
    · simp [hx, h x c]
  | unsubscribe id =>
    rw [TopicRouter.perform, mem_unsubscribe, record]
    by_cases hx : x = id
    · subst hx
      simp
    · simp [hx, h x c]

theorem Holds.run (h : r.Holds table) (ops : List RouterOp) :
    (ops.foldl TopicRouter.perform r).Holds (ops.foldl record table) := by
  induction ops generalizing r table with
  | nil => exact h
  | cons op ops ih => exact ih (h.perform op)

theorem proper_record (htab : ∀ x filter, table x = some filter → Proper filter) {op : RouterOp}
    (hop : op.Proper) : ∀ x filter, record table op x = some filter → Proper filter := by
  intro x filter h
  cases op with
  | subscribe id f =>
    rw [record] at h
    by_cases hx : x = id
    · rw [hx, update_self] at h
      exact some.inj h ▸ hop
    · rw [update_of_ne hx] at h
      exact htab x filter h
  | unsubscribe id =>
    rw [record] at h
    by_cases hx : x = id
    · rw [hx, update_self] at h
      exact absurd h (by simp)
    · rw [update_of_ne hx] at h
      exact htab x filter h

theorem proper_foldl_record (table : String → Option String)
    (htab : ∀ x filter, table x = some filter → Proper filter) {ops : List RouterOp}
    (hops : ∀ op ∈ ops, op.Proper) :
    ∀ x filter, ops.foldl record table x = some filter → Proper filter := by
  induction ops generalizing table with
  | nil => exact htab
  | cons op ops ih =>
    exact ih _ (proper_record htab (hops op mem_cons_self))
      fun o ho ↦ hops o (mem_cons_of_mem op ho)

/-- For a proper filter and topic the router decides the meaning of the filter. -/
theorem matchesLevels_iff {filter topic : String} (hfil : Proper filter) (htop : Proper topic) :
    (compile filter slash).matchesLevels (splitLevels (asBytes topic) slash) = true ↔
      Matches filter topic := by
  have hlevels : ∀ {s}, Proper s → levelList s = levels slash (asBytes s) := by
    intro s hs
    exact splitOn_of_open (fun h ↦ hs.1 (asBytes_injective h)) hs.2
  rw [matchesLevels_compile, topicMatches, topicMatchesSep_eq, marked_of_open htop.2, Matches,
    ← hlevels htop, filterPattern, ← hlevels hfil]
  change (if _ then _ else accepts ((levelList filter).map segment) _) = true ↔ _
  rw [ite_self]

/-- **Routing.** After any subscriptions to proper filters, a route returns each subscribed id at
most once, and exactly those whose most recent filter matches the topic. -/
theorem route_run (ops : List RouterOp) (hops : ∀ op ∈ ops, op.Proper) (topic : String)
    (htopic : Proper topic) :
    ((run ops).route topic).Nodup ∧ ∀ id, id ∈ (run ops).route topic ↔
        ∃ filter, filterOf ops id = some filter ∧ Matches filter topic := by
  have hholds : (run ops).Holds (filterOf ops) := holds_new.run ops
  have hproper := proper_foldl_record (fun _ ↦ none) (by simp) hops
  constructor
  · exact (run ops).nodup.sublist (filter_sublist.map Prod.fst)
  intro id
  rw [route, List.mem_map]
  constructor
  · rintro ⟨⟨id, c⟩, hmem, rfl⟩
    obtain ⟨hmem, hmatch⟩ := mem_filter.mp hmem
    obtain ⟨filter, hfilter, rfl⟩ := (hholds id c).mp hmem
    exact ⟨filter, hfilter, (matchesLevels_iff (hproper id filter hfilter) htopic).mp hmatch⟩
  · rintro ⟨filter, hfilter, hmatch⟩
    refine ⟨(id, compile filter slash), mem_filter.mpr ⟨?_, ?_⟩, rfl⟩
    · exact (hholds id _).mpr ⟨filter, hfilter, rfl⟩
    · exact (matchesLevels_iff (hproper id filter hfilter) htopic).mpr hmatch

/-- A filter is replaced, a subscriber leaves, and `#` stands for no level in the middle of a
filter. -/
theorem route_run_replaced :
    let ops : List RouterOp := [.subscribe "a" "x", .subscribe "b" "home/#/temp",
      .subscribe "c" "home/+", .subscribe "a" "+/temp", .unsubscribe "c"]
    (run ops).route "home/temp" = ["a", "b"] ∧ ("b" ∈ (run ops).route "home/temp" ↔
      ∃ filter, filterOf ops "b" = some filter ∧ Matches filter "home/temp") :=
  ⟨by decide +kernel, (route_run _ (by decide +kernel) "home/temp" (by decide +kernel)).2 "b"⟩

end TopicRouter

end Synapse
