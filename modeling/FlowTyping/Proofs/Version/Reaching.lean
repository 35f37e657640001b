/-
A read sees exactly the definitions that reach it.

A path from the entry to a read leaves the name with one definition: that of the last write on the
path, and without a write the value of a parameter on entry, or none (`Reaching`).  The definition
recorded for a read expands to exactly the definitions that some path leaves (`read_expands_iff`).
It is shown first for the merges before they are folded (`merge_expands_iff`): a merge has one
source for the entry and one for each block before it, and the path has one step for each of them.
All that is asked of the flow graph is that no occurrence of a name is read twice or written twice.
-/
import FlowTyping.Proofs.Flow.Path
import FlowTyping.Proofs.Version.Fold
import FlowTyping.Proofs.Version.Walk

namespace FlowTyping.Versions

open List Event

variable {d e : Definition} {id : NameId} {locals : List String} {m : Merge} {n v : Nat} {w : Walk}
  {before after : List Event} {items : List Flow.Item}

/-! ### What is to be shown -/

/-- What a definition of a name expands to over the merges that are left. -/
def Expands (v : Versions) (x : String) : Definition → Definition → Prop :=
  Merge.Expands (Merge.named x v.merges)

/-- The definition that a name has after some events from the entry on. -/
inductive Reaching (v : Versions) (params : List String) (x : String) (events : List Event) :
    Definition → Prop where
  /-- The name was written, and not again after that. -/
  | written {before after : List Event} {id : NameId} {n : Nat}
      (hevents : events = before ++ .write id x :: after) (hlast : ∀ id', .write id' x ∉ after)
      (hversion : v.written? id = some n) : Reaching v params x events (.version n)
  /-- A parameter that was not written. -/
  | initial (hnone : ∀ id, .write id x ∉ events) (hparam : x ∈ params) :
      Reaching v params x events (.version Versions.initial)
  /-- Any other name that was not written. -/
  | unbound (hnone : ∀ id, .write id x ∉ events) (hparam : x ∉ params) :
      Reaching v params x events .unbound

/-- A name is written at an occurrence in a reachable block. -/
def WrittenAt (flow : Flow) (x : String) (id : NameId) : Prop :=
  ∃ b ∈ flow.reachable, .write id x ∈ Event.ofItems (flow.items b)

/-- Each write of a name makes a version of its own, which is not that of a parameter on entry. -/
structure WritesApart (flow : Flow) (params : List String) (x : String) : Prop where
  exists_version : ∀ id, WrittenAt flow x id →
    ∃ n, (ofFlow flow params).written? id = some n ∧ n ≠ Versions.initial
  injective : ∀ id id', WrittenAt flow x id → WrittenAt flow x id' →
    (ofFlow flow params).written? id = (ofFlow flow params).written? id' → id = id'

/-- No occurrence is read twice or written twice in a flow graph. -/
structure DistinctOccurrences (flow : Flow) : Prop where
  reads : (readIds (blockEvents flow).flatten).Nodup
  writes : (writeIds (blockEvents flow).flatten).Nodup

/-! ### The parts of the construction -/

section

variable (flow : Flow) (params : List String)

def localsOf : List String := (ofFlow flow params).locals

/-- The merges without their sources, and the counters after them. -/
def issued : List Merge × Counters :=
  entryMerges (mattering flow (blockEvents flow) (localsOf flow params)) .empty flow.reachable

def walked : Walk × List (BlockId × Current) :=
  walkBlocks (blockEvents flow) (localsOf flow params) (issued flow params).1
    ⟨(issued flow params).2, [], [], .empty⟩ flow.reachable

def filled : List Merge :=
  (issued flow params).1.map fun m =>
    { m with sources := sources flow params flow.predecessors (walked flow params).2 m }

theorem written?_ofFlow (id : NameId) :
    (ofFlow flow params).written? id = (walked flow params).1.writes.lookup id := rfl

theorem merges_ofFlow : (ofFlow flow params).merges = ((filled flow params).filter
        (Merge.isKept (Merge.substitution (localsOf flow params) (filled flow params)))).map
      (Merge.simplified (Merge.substitution (localsOf flow params) (filled flow params))) := rfl

theorem reads_ofFlow :
    (ofFlow flow params).reads = (walked flow params).1.reads.map fun (id, name, v) =>
      (id, Merge.resolve (Merge.substitution (localsOf flow params) (filled flow params)) name
        (.version v)) := rfl

end

variable {flow : Flow} {params : List String} {b : BlockId} {x : String}

/-! ### Occurrences -/

theorem eventsOf_blockEvents (flow : Flow) (b : BlockId) :
    eventsOf (blockEvents flow) b = Event.ofItems (flow.items b) := by
  rw [eventsOf, blockEvents, List.getElem?_map, Array.getElem?_toList, Flow.items]
  rcases flow.blocks[b.index]? with - | block <;> rfl

/-- Picking different blocks picks different parts of what all blocks list. -/
theorem nodup_flatMap_eventsOf {f : List Event → List NameId}
    (happend : ∀ es es', f (es ++ es') = f es ++ f es') (hnil : f [] = []) {events : List (List Event)}
    (h : (f events.flatten).Nodup) {bs : List BlockId} (hbs : bs.Nodup) :
    (f (bs.flatMap (eventsOf events))).Nodup := by
  have hmap : ∀ ls : List (List Event), f ls.flatten = (ls.map f).flatten := by
    intro ls
    induction ls with
    | nil => exact hnil
    | cons l ls ih => rw [flatten_cons, happend, ih, map_cons, flatten_cons]
  rw [hmap, nodup_flatten, pairwise_map] at h
  obtain ⟨heach, hpairs⟩ := h
  rw [List.flatMap, hmap, nodup_flatten, map_map, pairwise_map]
  have hget : ∀ b : BlockId, ∀ id ∈ f (eventsOf events b),
      ∃ es, events[b.index]? = some es ∧ eventsOf events b = es := by
    intro b id hid
    rcases hes : events[b.index]? with - | es
    · rw [eventsOf, hes, Option.getD_none, hnil] at hid
      cases hid
    · exact ⟨es, rfl, by rw [eventsOf, hes, Option.getD_some]⟩
  constructor
  · intro l hl
    obtain ⟨b, -, rfl⟩ := mem_map.1 hl
    rcases hes : events[b.index]? with - | es
    · have hempty : eventsOf events b = [] := by rw [eventsOf, hes, Option.getD_none]
      rw [Function.comp_apply, hempty, hnil]
      exact nodup_nil
    · have hsome : eventsOf events b = es := by rw [eventsOf, hes, Option.getD_some]
      rw [Function.comp_apply, hsome]
      exact heach _ (mem_map_of_mem (mem_of_getElem? hes))
  · refine hbs.imp fun {b b'} hne => ?_
    intro id hid hid'
    obtain ⟨es, hes, heq⟩ := hget b id hid
    obtain ⟨es', hes', heq'⟩ := hget b' id hid'
    rw [Function.comp_apply, heq] at hid
    rw [Function.comp_apply, heq'] at hid'
    rw [pairwise_iff_getElem] at hpairs
    obtain ⟨hi, rfl⟩ := List.getElem?_eq_some_iff.1 hes
    obtain ⟨hj, rfl⟩ := List.getElem?_eq_some_iff.1 hes'
    rcases Nat.lt_or_gt_of_ne (fun h : b.index = b'.index => hne (congrArg BlockId.mk h)) with hlt | hlt
    · exact hpairs _ _ hi hj hlt hid hid'
    · exact hpairs _ _ hj hi hlt hid' hid

theorem nodup_walked (h : DistinctOccurrences flow) (params : List String) :
    ((walked flow params).1.reads.map Prod.fst).Nodup ∧
      ((walked flow params).1.writes.map Prod.fst).Nodup := by
  have hsub := @recorded_walkBlocks (localsOf flow params) (blockEvents flow) (issued flow params).1
    ⟨(issued flow params).2, [], [], .empty⟩ flow.reachable
  have hreachable := Flow.nodup_reachable flow
  rw [← nodup_reverse, ← nodup_reverse (l := List.map _ _)]
  exact ⟨hsub.1.nodup (nodup_flatMap_eventsOf readIds_append rfl h.reads hreachable),
    hsub.2.nodup (nodup_flatMap_eventsOf writeIds_append rfl h.writes hreachable)⟩

theorem nodup_reads (h : DistinctOccurrences flow) (params : List String) :
    ((ofFlow flow params).reads.map Prod.fst).Nodup := by
  rw [reads_ofFlow, map_map]
  exact (nodup_walked h params).1

theorem eq_of_mem_writes (h : DistinctOccurrences flow) {n' : Nat}
    (hn : (id, n) ∈ (walked flow params).1.writes)
    (hn' : (id, n') ∈ (walked flow params).1.writes) : n = n' := by
  have hkeys := (nodup_walked h params).2
  rw [← lookup_eq_some_iff_mem hkeys] at hn hn'
  exact Option.some_inj.1 (hn.symm.trans hn')

/-! ### Merges before folding -/

theorem mem_mattering : x ∈ mattering flow (blockEvents flow) locals b ↔ x ∈ locals ∧
      ∃ c, flow.Leads b c ∧ ∃ e ∈ Event.ofItems (flow.items c), e.name? = some x := by
  simp only [mattering, firstOccurrences, mem_filter, decide_eq_true_eq, mem_foldl_new,
    not_mem_nil, false_or, mem_flatMap, mem_filterMap]
  refine and_congr_right fun _ => ⟨?_, ?_⟩
  · rintro ⟨i, hi, e, he, hname⟩
    have hlead : flow.Leads b ⟨i⟩ := Flow.reaches_iff_leads.1 (Search.mem_preorder_iff.1 hi)
    exact ⟨⟨i⟩, hlead, e, eventsOf_blockEvents flow ⟨i⟩ ▸ he, hname⟩
  · rintro ⟨c, hlead, e, he, hname⟩
    refine ⟨c.index, Search.mem_preorder_iff.2 (Flow.reaches_iff_leads.2 hlead), e, ?_, hname⟩
    rw [← eventsOf_blockEvents] at he
    exact he

/-- What matters in a block matters in the blocks before it. -/
theorem mem_mattering_of_exit {a : BlockId} (hexit : b ∈ flow.exits a)
    (h : x ∈ mattering flow (blockEvents flow) locals b) :
    x ∈ mattering flow (blockEvents flow) locals a := by
  obtain ⟨hx, c, hlead, he⟩ := mem_mattering.1 h
  exact mem_mattering.2 ⟨hx, c, .head hexit hlead, he⟩

theorem index_lt_of_mem_mattering (h : x ∈ mattering flow (blockEvents flow) locals b) :
    b.index < flow.blocks.size := by
  obtain ⟨-, c, hlead, e, he, -⟩ := mem_mattering.1 h
  rcases Relation.ReflTransGen.cases_head hlead with rfl | ⟨a, hexit, -⟩
  · by_contra hge
    rw [Flow.items, Array.getElem?_eq_none (le_of_not_gt hge)] at he
    cases he
  · exact Flow.index_lt_of_mem_exits hexit

/-- A merge that was given a version belongs to a reachable block where its name matters. -/
theorem mem_issued (h : m ∈ (issued flow params).1) : m.block ∈ flow.reachable ∧
      m.name ∈ mattering flow (blockEvents flow) (localsOf flow params) m.block :=
  mem_entryMerges h

theorem issued_spec (flow : Flow) (params : List String) :
    Issued .empty (issued flow params).2 (issued flow params).1 :=
  issued_entryMerges _ _ _

theorem eq_of_mem_issued {m' : Merge} (hm : m ∈ (issued flow params).1)
    (hm' : m' ∈ (issued flow params).1) (hname : m.name = m'.name)
    (hversion : m.version = m'.version) : m = m' := by
  by_contra hne
  have hsymm : Std.Symm fun m m' : Merge => m.name = m'.name → m.version ≠ m'.version :=
    ⟨fun _ _ h hname => (h hname.symm).symm⟩
  exact (issued_spec flow params).distinct.forall hm hm' hne hname hversion

theorem mem_filled : m ∈ filled flow params ↔ ∃ m₀ ∈ (issued flow params).1,
      m = { m₀ with sources := sources flow params flow.predecessors (walked flow params).2 m₀ } := by
  rw [filled, mem_map]
  exact exists_congr fun m₀ => and_congr_right fun _ => eq_comm

theorem distinct_filled (flow : Flow) (params : List String) (x : String) :
    Merge.Distinct (Merge.named x (filled flow params)) := by
  intro m hm m' hm' hversion
  obtain ⟨hm, hname⟩ := Merge.mem_named.1 hm
  obtain ⟨hm', hname'⟩ := Merge.mem_named.1 hm'
  obtain ⟨m₀, hm₀, rfl⟩ := mem_filled.1 hm
  obtain ⟨m₁, hm₁, rfl⟩ := mem_filled.1 hm'
  obtain rfl := eq_of_mem_issued hm₀ hm₁ (hname.trans hname'.symm) hversion
  rfl

/-! ### Writes -/

def reachableEvents (flow : Flow) : List Event := flow.reachable.flatMap fun b => Event.ofItems (flow.items b)

theorem mem_reachableEvents {e : Event} :
    e ∈ reachableEvents flow ↔ ∃ b ∈ flow.reachable, e ∈ Event.ofItems (flow.items b) := mem_flatMap

theorem exists_logged (flow : Flow) (params : List String) :
    ∃ log, Logged (localsOf flow params) (issued flow params).2 (walked flow params).1
      (reachableEvents flow) log := by
  have hstart : Logged (localsOf flow params) (issued flow params).2
      ⟨(issued flow params).2, [], [], .empty⟩ [] [] :=
    ⟨fun _ => le_rfl, fun _ _ h => absurd h nofun, fun _ _ _ h => absurd h not_mem_nil, rfl,
      fun _ _ _ h => absurd h not_mem_nil, fun _ _ h => absurd h not_mem_nil,
      fun _ _ _ h => absurd h not_mem_nil, fun _ _ _ h => absurd h not_mem_nil, .nil⟩
  have hmerges : ∀ m ∈ (issued flow params).1, m.name ∈ localsOf flow params := fun m hm =>
    (mem_mattering.1 (mem_issued hm).2).1
  obtain ⟨log, hlog⟩ := hstart.walkBlocks hmerges flow.reachable
  rw [nil_append, funext (eventsOf_blockEvents flow)] at hlog
  exact ⟨log, hlog⟩

theorem writesApart (h : DistinctOccurrences flow) (hx : x ∈ localsOf flow params) :
    WritesApart flow params x := by
  obtain ⟨log, hlog⟩ := exists_logged flow params
  have hlogged : ∀ id, WrittenAt flow x id → ∃ v, (id, x, v) ∈ log ∧
      (ofFlow flow params).written? id = some v := by
    intro id hid
    obtain ⟨v, hv⟩ := hlog.complete id x (mem_reachableEvents.2 hid) hx
    have hmem : (id, v) ∈ (walked flow params).1.writes :=
      hlog.writes ▸ mem_map_of_mem (f := fun p : NameId × String × Nat => (p.1, p.2.2)) hv
    exact ⟨v, hv, (lookup_eq_some_iff_mem (nodup_walked h params).2).2 hmem⟩
  refine ⟨fun id hid => ?_, fun id id' hid hid' heq => ?_⟩
  · obtain ⟨v, hv, hwritten⟩ := hlogged id hid
    exact ⟨v, hwritten, (Nat.zero_lt_of_lt (hlog.above id x v hv)).ne'⟩
  · obtain ⟨v, hv, hwritten⟩ := hlogged id hid
    obtain ⟨v', hv', hwritten'⟩ := hlogged id' hid'
    obtain rfl : v = v' := Option.some_inj.1 (hwritten.symm.trans (heq.trans hwritten'))
    by_contra hne
    have hsymm : Std.Symm fun p p' : NameId × String × Nat => p.2.1 = p'.2.1 → p.2.2 ≠ p'.2.2 :=
      ⟨fun _ _ h hname => (h hname.symm).symm⟩
    exact hlog.distinct.forall hv hv' (fun heq => hne (congrArg Prod.fst heq)) rfl rfl

/-! ### Versions inside a block -/

/-- The definition of a name that was not written since the entry. -/
def onEntry (params : List String) (x : String) : Definition :=
  if x ∈ params then .version initial else .unbound

/-- A local has a version after some events of a block: that of its last write, or that of the merge
at the start. -/
def VersionAfter (flow : Flow) (params : List String) (b : BlockId) (before : List Event)
    (x : String) (v : Nat) : Prop :=
  (∃ id, lastWrite x before = some id ∧ (id, v) ∈ (walked flow params).1.writes ∧
    given (issued flow params).2 x < v) ∨
  lastWrite x before = none ∧ (atEntry (issued flow params).1 b).get? x = some v

theorem VersionAfter.unique (h : DistinctOccurrences flow) {v' : Nat}
    (hv : VersionAfter flow params b before x v) (hv' : VersionAfter flow params b before x v') :
    v = v' := by
  rcases hv with ⟨id, hid, hmem, -⟩ | ⟨hnone, hget⟩
  · rcases hv' with ⟨id', hid', hmem', -⟩ | ⟨hnone', -⟩
    · obtain rfl := Option.some_inj.1 (hid.symm.trans hid')
      exact eq_of_mem_writes h hmem hmem'
    · rw [hid] at hnone'
      cases hnone'
  · rcases hv' with ⟨id', hid', -, -⟩ | ⟨-, hget'⟩
    · rw [hnone] at hid'
      cases hid'
    · exact Option.some_inj.1 (hget.symm.trans hget')

theorem walked_spec (flow : Flow) (params : List String) :
    (walked flow params).2.map Prod.fst = flow.reachable ∧
      ∀ b ∈ flow.reachable, ∃ w, Visits (blockEvents flow) (localsOf flow params)
        (issued flow params).1 (issued flow params).2 b (walked flow params).2
        (walked flow params).1 w := by
  have hle : ∀ name, given (issued flow params).2 name ≤
      given (⟨(issued flow params).2, [], [], .empty⟩ : Walk).counters name := fun _ => le_rfl
  exact (walkBlocks_spec hle).2

/-- Where a walk stands in a block, the current versions are as they should be. -/
theorem tracks_foldl (hw : Visits (blockEvents flow) (localsOf flow params) (issued flow params).1
      (issued flow params).2 b (walked flow params).2 (walked flow params).1 w)
    (hevents : Event.ofItems (flow.items b) = before ++ after) :
    Tracks (localsOf flow params) (issued flow params).2 (atEntry (issued flow params).1 b) before
      (before.foldl (Walk.take (localsOf flow params)) w) ∧
    Records (after.foldl (Walk.take (localsOf flow params))
      (before.foldl (Walk.take (localsOf flow params)) w)) (walked flow params).1 := by
  have hstart : Tracks (localsOf flow params) (issued flow params).2
      (atEntry (issued flow params).1 b) [] w :=
    ⟨hw.le, fun _ _ _ h => absurd h nofun, fun _ _ _ => by rw [hw.current]⟩
  refine ⟨hstart.foldl_take before, ?_⟩
  rw [← foldl_append, ← hevents, ← eventsOf_blockEvents]
  exact hw.records

theorem versionAfter_of_tracks (hx : x ∈ localsOf flow params)
    (htracks : Tracks (localsOf flow params) (issued flow params).2
      (atEntry (issued flow params).1 b) before w) (hrecords : Records w (walked flow params).1)
    (hv : w.current.get? x = some v) : VersionAfter flow params b before x v := by
  rcases hlast : lastWrite x before with - | id
  · refine .inr ⟨hlast, ?_⟩
    rw [← htracks.unwritten x hx hlast, hv]
  · obtain ⟨v', hv', hmem, hlt⟩ := htracks.written x hx id hlast
    obtain rfl := Option.some_inj.1 (hv.symm.trans hv')
    exact .inl ⟨id, hlast, hrecords.writes _ hmem, hlt⟩

/-- Where a name matters it has a version all along the block. -/
theorem exists_current (hb : b ∈ flow.reachable)
    (hx : x ∈ mattering flow (blockEvents flow) (localsOf flow params) b)
    (htracks : Tracks (localsOf flow params) (issued flow params).2
      (atEntry (issued flow params).1 b) before w) : ∃ v, w.current.get? x = some v := by
  have hlocal := (mem_mattering.1 hx).1
  rcases hlast : lastWrite x before with - | id
  · obtain ⟨m, hm, rfl, rfl⟩ := exists_mem_entryMerges (c := .empty) hb hx
    rw [htracks.unwritten _ hlocal hlast]
    exact exists_get?_atEntry hm
  · obtain ⟨v, hv, -⟩ := htracks.written x hlocal id hlast
    exact ⟨v, hv⟩

theorem exists_exit (hb : b ∈ flow.reachable)
    (hx : x ∈ mattering flow (blockEvents flow) (localsOf flow params) b) :
    ∃ current v, (b, current) ∈ (walked flow params).2 ∧ current.get? x = some v ∧
      VersionAfter flow params b (Event.ofItems (flow.items b)) x v := by
  obtain ⟨w, hw⟩ := (walked_spec flow params).2 b hb
  obtain ⟨htracks, hrecords⟩ := tracks_foldl hw (append_nil _).symm
  obtain ⟨v, hv⟩ := exists_current hb hx htracks
  refine ⟨_, v, hw.exit, ?_, versionAfter_of_tracks (mem_mattering.1 hx).1 htracks hrecords hv⟩
  rw [eventsOf_blockEvents]
  exact hv

theorem exists_read (hb : b ∈ flow.reachable)
    (hevents : Event.ofItems (flow.items b) = before ++ .read id x :: after)
    (hx : x ∈ localsOf flow params) :
    ∃ v, (id, x, v) ∈ (walked flow params).1.reads ∧ VersionAfter flow params b before x v := by
  have hmatters : x ∈ mattering flow (blockEvents flow) (localsOf flow params) b := by
    refine mem_mattering.2 ⟨hx, b, .refl, .read id x, ?_, rfl⟩
    rw [hevents]
    exact mem_append_right before mem_cons_self
  obtain ⟨w, hw⟩ := (walked_spec flow params).2 b hb
  obtain ⟨htracks, hrecords⟩ := tracks_foldl hw hevents
  obtain ⟨v, hv⟩ := exists_current hb hmatters htracks
  set here := before.foldl (Walk.take (localsOf flow params)) w with hhere
  have hread : (here.take (localsOf flow params) (.read id x)).reads = (id, x, v) :: here.reads := by
    rw [Walk.take, hv]
  have hafter : Records (here.take (localsOf flow params) (.read id x)) (walked flow params).1 :=
    (records_foldl_take _ after).trans hrecords
  refine ⟨v, hafter.reads _ (hread ▸ mem_cons_self), ?_⟩
  exact versionAfter_of_tracks hx htracks ((records_take here _).trans hafter) hv

/-! ### What arrives at a merge -/

/-- **The sources of a merge**: the definition on entry, and the version at the end of each
reachable block before it. -/
theorem mem_sources (h : DistinctOccurrences flow) (hm : m ∈ (issued flow params).1)
    {s : Definition} :
    s ∈ sources flow params flow.predecessors (walked flow params).2 m ↔
      (m.block = flow.entry ∧ s = onEntry params m.name) ∨
      ∃ p v, p ∈ flow.reachable ∧ m.block ∈ flow.exits p ∧
        VersionAfter flow params p (Event.ofItems (flow.items p)) m.name v ∧ s = .version v := by
  obtain ⟨-, hmatters⟩ := mem_issued hm
  obtain ⟨hkeys, -⟩ := walked_spec flow params
  have hnodup : ((walked flow params).2.map Prod.fst).Nodup := hkeys ▸ Flow.nodup_reachable flow
  rw [sources, mem_foldl_new, mem_append, mem_filterMap]
  simp only [not_mem_nil, false_or]
  refine or_congr ?_ ?_
  · split
    · next hentry => simp only [hentry, true_and, mem_singleton, onEntry]
    · next hentry => simp only [hentry, false_and, not_mem_nil]
  · constructor
    · rintro ⟨p, hp, hsource⟩
      rw [Flow.mem_predecessors (index_lt_of_mem_mattering hmatters)] at hp
      obtain ⟨current, hlookup, rfl⟩ := Option.map_eq_some_iff.1 hsource
      have hmem := mem_of_lookup_eq_some hlookup
      have hreach : p ∈ flow.reachable := hkeys ▸ mem_map_of_mem hmem
      obtain ⟨current', v, hmem', hv, hafter⟩ :=
        exists_exit hreach (mem_mattering_of_exit hp hmatters)
      rw [← lookup_eq_some_iff_mem hnodup, hlookup, Option.some_inj] at hmem'
      subst hmem'
      exact ⟨p, v, hreach, hp, hafter, by rw [hv]⟩
    · rintro ⟨p, v, hreach, hp, hafter, rfl⟩
      obtain ⟨current, v', hmem, hv, hafter'⟩ :=
        exists_exit hreach (mem_mattering_of_exit hp hmatters)
      obtain rfl := hafter.unique h hafter'
      refine ⟨p, (Flow.mem_predecessors (index_lt_of_mem_mattering hmatters)).2 hp, ?_⟩
      rw [(lookup_eq_some_iff_mem hnodup).2 hmem, Option.map_some, hv]

/-- The version that a name has at the start of a block is that of a merge. -/
theorem exists_mem_filled (h : (atEntry (issued flow params).1 b).get? x = some v) :
    ∃ m ∈ Merge.named x (filled flow params), m.block = b ∧ m.version = v := by
  obtain ⟨m₀, hm₀, hblock, hname, hversion⟩ := get?_atEntry h
  exact ⟨_, Merge.mem_named.2 ⟨mem_filled.2 ⟨m₀, hm₀, rfl⟩, hname⟩, hblock, hversion⟩

/-- The definitions of writes and of entry are no merges. -/
theorem not_merge_onEntry (flow : Flow) (params : List String) (x : String) :
    ∀ m ∈ Merge.named x (filled flow params), onEntry params x ≠ .version m.version := by
  intro m hm heq
  obtain ⟨m₀, hm₀, rfl⟩ := mem_filled.1 (Merge.mem_named.1 hm).1
  have habove : 0 < m₀.version := (issued_spec flow params).above m₀ hm₀
  rw [onEntry] at heq
  split at heq
  · rw [← Definition.version.inj heq] at habove
    exact lt_irrefl _ habove
  · cases heq

theorem not_merge_of_given_lt (hv : given (issued flow params).2 x < v) :
    ∀ m ∈ Merge.named x (filled flow params), Definition.version v ≠ .version m.version := by
  intro m hm heq
  obtain ⟨hfilled, rfl⟩ := Merge.mem_named.1 hm
  obtain ⟨m₀, hm₀, rfl⟩ := mem_filled.1 hfilled
  have hbelow := (issued_spec flow params).below m₀ hm₀
  rw [Definition.version.inj heq] at hv
  exact absurd hv (Nat.not_lt_of_le hbelow)

theorem eq_of_expands {merges : List Merge} (h : Merge.Expands merges d e)
    (hd : ∀ m ∈ merges, d ≠ .version m.version) : e = d := by
  cases h with
  | leaf _ => rfl
  | merge hm _ _ => exact absurd rfl (hd _ hm)

/-! ### Paths and merges -/

/-- The definition that events from the entry on leave, in terms of the walk. -/
def Leaves (flow : Flow) (params : List String) (x : String) (events : List Event)
    (e : Definition) : Prop :=
  (∃ id n, lastWrite x events = some id ∧ (id, n) ∈ (walked flow params).1.writes ∧
    e = .version n) ∨
  lastWrite x events = none ∧ e = onEntry params x

variable (h : DistinctOccurrences flow)
include h

theorem reaching_iff_leaves {events : List Event} :
    (ofFlow flow params).Reaching params x events e ↔ Leaves flow params x events e := by
  have hlookup : ∀ id n, (ofFlow flow params).written? id = some n ↔
      (id, n) ∈ (walked flow params).1.writes := by
    intro id n
    rw [written?_ofFlow, lookup_eq_some_iff_mem (nodup_walked h params).2]
  constructor
  · intro hreach
    cases hreach with
    | @written before after id n hevents hlast hversion =>
      refine .inl ⟨id, n, ?_, (hlookup id n).1 hversion, rfl⟩
      exact lastWrite_eq_some_iff.2 ⟨before, after, hevents, lastWrite_eq_none_iff.2 hlast⟩
    | initial hnone hparam =>
      exact .inr ⟨lastWrite_eq_none_iff.2 hnone, by rw [onEntry, if_pos hparam]⟩
    | unbound hnone hparam =>
      exact .inr ⟨lastWrite_eq_none_iff.2 hnone, by rw [onEntry, if_neg hparam]⟩
  · rintro (⟨id, n, hlast, hmem, rfl⟩ | ⟨hnone, rfl⟩)
    · obtain ⟨before, after, hevents, hafter⟩ := lastWrite_eq_some_iff.1 hlast
      exact .written hevents (lastWrite_eq_none_iff.1 hafter) ((hlookup id n).2 hmem)
    · rw [onEntry]
      split
      · next hparam => exact .initial (lastWrite_eq_none_iff.1 hnone) hparam
      · next hparam => exact .unbound (lastWrite_eq_none_iff.1 hnone) hparam

omit h in
theorem Leaves.append (h : Leaves flow params x before e)
    (hnone : lastWrite x after = none) : Leaves flow params x (before ++ after) e := by
  rw [Leaves, lastWrite_append, hnone, Option.none_or]
  exact h

omit h in
theorem Leaves.of_append (h : Leaves flow params x (before ++ after) e)
    (hnone : lastWrite x after = none) : Leaves flow params x before e := by
  rw [Leaves, lastWrite_append, hnone, Option.none_or] at h
  exact h

omit h in
theorem leaves_of_lastWrite (hlast : lastWrite x after = some id)
    (hn : (id, n) ∈ (walked flow params).1.writes) :
    Leaves flow params x (before ++ after) (.version n) := by
  refine .inl ⟨id, n, ?_, hn, rfl⟩
  rw [lastWrite_append, hlast, Option.some_or]

theorem eq_of_leaves (hlast : lastWrite x after = some id)
    (hn : (id, n) ∈ (walked flow params).1.writes) (he : Leaves flow params x (before ++ after) e) :
    e = .version n := by
  rw [Leaves, lastWrite_append, hlast, Option.some_or] at he
  rcases he with ⟨id', n', heq, hn', rfl⟩ | ⟨hnone, -⟩
  · obtain rfl := Option.some_inj.1 heq
    rw [eq_of_mem_writes h hn hn']
  · cases hnone

omit h in
/-- Every path leaves a local with a definition. -/
theorem exists_leaves (harrives : flow.Arrives b items)
    (hx : x ∈ localsOf flow params) : ∃ e, Leaves flow params x (Event.ofItems items) e := by
  induction harrives with
  | entry => exact ⟨_, .inr ⟨rfl, rfl⟩⟩
  | @step a b items harrives hexit ih =>
    rw [Event.ofItems, flatMap_append]
    rcases hlast : lastWrite x (Event.ofItems (flow.items a)) with - | id
    · obtain ⟨e, he⟩ := ih
      exact ⟨e, he.append hlast⟩
    · obtain ⟨w, hw⟩ := (walked_spec flow params).2 a (Flow.mem_reachable_iff.2 ⟨items, harrives⟩)
      obtain ⟨htracks, hrecords⟩ := tracks_foldl hw (append_nil _).symm
      obtain ⟨v, -, hmem, -⟩ := htracks.written x hx id hlast
      exact ⟨_, leaves_of_lastWrite hlast (hrecords.writes _ hmem)⟩

/-- Along a path: what it leaves is something that the merge at its end expands to. -/
theorem expands_of_arrives (harrives : flow.Arrives b items)
    (hleaves : Leaves flow params x (Event.ofItems items) e)
    (hm : m ∈ Merge.named x (filled flow params)) (hblock : m.block = b) :
    Merge.Expands (Merge.named x (filled flow params)) (.version m.version) e := by
  induction harrives generalizing m with
  | entry =>
    rcases hleaves with ⟨id, n, hlast, -, -⟩ | ⟨-, rfl⟩
    · cases hlast
    · refine .merge hm ?_ (.leaf (not_merge_onEntry flow params x))
      obtain ⟨hfilled, rfl⟩ := Merge.mem_named.1 hm
      obtain ⟨m₀, hm₀, rfl⟩ := mem_filled.1 hfilled
      exact (mem_sources h hm₀).2 (.inl ⟨hblock, rfl⟩)
  | @step a b items harrives hexit ih =>
    rw [Event.ofItems, flatMap_append] at hleaves
    have ha : a ∈ flow.reachable := Flow.mem_reachable_iff.2 ⟨items, harrives⟩
    obtain ⟨hfilled, hname⟩ := Merge.mem_named.1 hm
    obtain ⟨m₀, hm₀, heq⟩ := mem_filled.1 hfilled
    have hmatters : x ∈ mattering flow (blockEvents flow) (localsOf flow params) a := by
      refine mem_mattering_of_exit hexit ?_
      rw [← hname, ← hblock, heq]
      exact (mem_issued hm₀).2
    obtain ⟨-, v, -, -, hafter⟩ := exists_exit ha hmatters
    have hsource : Definition.version v ∈ m.sources := by
      subst heq
      subst hname
      exact (mem_sources h hm₀).2 (.inr ⟨a, v, ha, hblock ▸ hexit, hafter, rfl⟩)
    refine .merge hm hsource ?_
    rcases hafter with ⟨id, hlast, hmem, hlt⟩ | ⟨hnone, hget⟩
    · rw [eq_of_leaves h hlast hmem hleaves]
      exact .leaf (not_merge_of_given_lt hlt)
    · obtain ⟨m₁, hm₁, hblock₁, rfl⟩ := exists_mem_filled hget
      exact ih (hleaves.of_append hnone) hm₁ hblock₁

/-- Back from a merge: what it expands to is left by a path to it. -/
theorem arrives_of_expands (hexpands : Merge.Expands (Merge.named x (filled flow params)) d e)
    (hm : m ∈ Merge.named x (filled flow params)) (hd : d = .version m.version) :
    ∃ items, flow.Arrives m.block items ∧ Leaves flow params x (Event.ofItems items) e := by
  induction hexpands generalizing m with
  | leaf hleaf => exact absurd hd (hleaf m hm)
  | @merge m' s e hm' hs hrest ih =>
    obtain rfl := distinct_filled flow params x m' hm' m hm (Definition.version.inj hd)
    obtain ⟨hfilled, rfl⟩ := Merge.mem_named.1 hm
    obtain ⟨m₀, hm₀, rfl⟩ := mem_filled.1 hfilled
    rcases (mem_sources h hm₀).1 hs with ⟨hentry, rfl⟩ | ⟨p, v, hp, hexit, hafter, rfl⟩
    · rw [eq_of_expands hrest (not_merge_onEntry flow params _)]
      refine ⟨[], ?_, .inr ⟨rfl, rfl⟩⟩
      show flow.Arrives m₀.block []
      rw [hentry]
      exact .entry
    · rcases hafter with ⟨id, hlast, hmem, hlt⟩ | ⟨hnone, hget⟩
      · obtain ⟨items, harrives⟩ := Flow.mem_reachable_iff.1 hp
        refine ⟨_, harrives.step hexit, ?_⟩
        rw [eq_of_expands hrest (not_merge_of_given_lt hlt), Event.ofItems, flatMap_append]
        exact leaves_of_lastWrite hlast hmem
      · obtain ⟨m₁, hm₁, hblock₁, rfl⟩ := exists_mem_filled hget
        obtain ⟨items, harrives, hleaves⟩ := ih hm₁ rfl
        have hstep : flow.Arrives p items := hblock₁ ▸ harrives
        refine ⟨_, hstep.step hexit, ?_⟩
        rw [Event.ofItems, flatMap_append]
        exact hleaves.append hnone

/-- **A merge before folding expands to what the paths to its block leave.** -/
theorem merge_expands_iff (hm : m ∈ Merge.named x (filled flow params)) :
    Merge.Expands (Merge.named x (filled flow params)) (.version m.version) e ↔
      ∃ items, flow.Arrives m.block items ∧ Leaves flow params x (Event.ofItems items) e :=
  ⟨fun hexpands => arrives_of_expands h hexpands hm rfl,
    fun ⟨_, harrives, hleaves⟩ => expands_of_arrives h harrives hleaves hm rfl⟩

theorem grounded_filled (params : List String) (x : String) :
    Merge.Grounded (Merge.named x (filled flow params)) := by
  intro m hm
  obtain ⟨hfilled, hname⟩ := Merge.mem_named.1 hm
  obtain ⟨m₀, hm₀, heq⟩ := mem_filled.1 hfilled
  obtain ⟨hreach, hmatters⟩ := mem_issued hm₀
  obtain ⟨items, harrives⟩ := Flow.mem_reachable_iff.1 hreach
  have hblock : m.block = m₀.block := by rw [heq]
  have hx : x ∈ localsOf flow params := by
    rw [← hname, heq]
    exact (mem_mattering.1 hmatters).1
  obtain ⟨e, he⟩ := exists_leaves harrives hx
  exact ⟨e, (merge_expands_iff h hm).2 ⟨items, hblock ▸ harrives, he⟩⟩

/-! ### Reads -/

/-- **A read sees exactly the definitions that reach it**, in a flow graph with distinct
occurrences. -/
theorem read_expands_iff (hb : b ∈ flow.reachable)
    (hevents : Event.ofItems (flow.items b) = before ++ .read id x :: after)
    (hx : x ∈ localsOf flow params) :
    ∃ d, (ofFlow flow params).read? id = some d ∧ ∀ e, (ofFlow flow params).Expands x d e ↔
      ∃ items, flow.Arrives b items ∧
        (ofFlow flow params).Reaching params x (Event.ofItems items ++ before) e := by
  obtain ⟨v, hread, hafter⟩ := exists_read hb hevents hx
  refine ⟨Merge.resolve (Merge.substitution (localsOf flow params) (filled flow params)) x
    (.version v), ?_, fun e => ?_⟩
  · exact (lookup_eq_some_iff_mem (nodup_reads h params)).2 (mem_map.2 ⟨_, hread, rfl⟩)
  rw [Expands, merges_ofFlow, Merge.named_simplified hx, Merge.resolve_substitution hx,
    Merge.expands_kept_iff (distinct_filled flow params x) (grounded_filled h params x)]
  simp only [reaching_iff_leaves h]
  -- The name was written in the block before the read, or the read sees the merge at its start.
  rcases hafter with ⟨wid, hlast, hmem, hlt⟩ | ⟨hnone, hget⟩
  · constructor
    · intro hexpands
      obtain ⟨items, harrives⟩ := Flow.mem_reachable_iff.1 hb
      rw [eq_of_expands hexpands (not_merge_of_given_lt hlt)]
      exact ⟨items, harrives, leaves_of_lastWrite hlast hmem⟩
    · rintro ⟨items, -, hleaves⟩
      rw [eq_of_leaves h hlast hmem hleaves]
      exact .leaf (not_merge_of_given_lt hlt)
  · obtain ⟨m, hm, rfl, rfl⟩ := exists_mem_filled hget
    refine (merge_expands_iff h hm).trans ?_
    refine exists_congr fun items => and_congr_right fun _ => ?_
    exact ⟨fun hleaves => hleaves.append hnone, fun hleaves => hleaves.of_append hnone⟩

end FlowTyping.Versions
