/-
Giving out versions: the merges at the start of blocks, and the walk over reads and writes.

A version is new for its name whenever it is given out, since the counter of the name goes up by
one.  So no two merges of a name have the same version (`Issued`), and the versions of writes are
above those of all merges.  After some events of a block a local has the version of the last write
to it among them, and without such a write the version that it had at the start of the block;
`Tracks` is this invariant.
-/
import FlowTyping.Proofs.Table
import FlowTyping.Version.Basic

namespace FlowTyping

open Option

variable {name : String} {e : Event}

namespace Event

variable {id : NameId} {events : List Event}

/-- The occurrence at which an event writes a name. -/
def writeOf? (name : String) : Event → Option NameId
  | write id other => if other = name then some id else none
  | _ => none

def lastWrite (name : String) (events : List Event) : Option NameId :=
  (events.filterMap (writeOf? name)).getLast?

theorem lastWrite_append (name : String) (before after : List Event) :
    lastWrite name (before ++ after) = (lastWrite name after).or (lastWrite name before) := by
  rw [lastWrite, List.filterMap_append, List.getLast?_append]
  rfl

theorem lastWrite_singleton (name : String) (e : Event) : lastWrite name [e] = writeOf? name e := by
  rcases h : writeOf? name e with - | id <;> simp [lastWrite, h]

theorem writeOf?_eq_some : writeOf? name e = some id ↔ e = write id name := by
  cases e with
  | write other written =>
    simp only [writeOf?, write.injEq]
    split <;> grind
  | _ => simp [writeOf?]

/-- The last write of a name is an event after which the name is not written. -/
theorem lastWrite_eq_some_iff :
    lastWrite name events = some id ↔ ∃ before after, events = before ++ write id name :: after ∧
      lastWrite name after = none := by
  constructor
  · intro h
    induction events using List.reverseRecOn with
    | nil => cases h
    | append_singleton events e ih =>
      rw [lastWrite_append, lastWrite_singleton] at h
      rcases he : writeOf? name e with - | id'
      · rw [he, none_or] at h
        obtain ⟨before, after, rfl, hafter⟩ := ih h
        refine ⟨before, after ++ [e], by simp, ?_⟩
        rw [lastWrite_append, lastWrite_singleton, he, hafter]
        rfl
      · rw [he, some_or, some_inj] at h
        subst h
        exact ⟨events, [], by rw [writeOf?_eq_some.1 he], rfl⟩
  · rintro ⟨before, after, rfl, hafter⟩
    have hwrite : writeOf? name (write id name) = some id := writeOf?_eq_some.2 rfl
    rw [List.append_cons, lastWrite_append, hafter, none_or, lastWrite_append,
      lastWrite_singleton, hwrite, some_or]

theorem lastWrite_eq_none_iff : lastWrite name events = none ↔ ∀ id, write id name ∉ events := by
  rw [lastWrite, List.getLast?_eq_none_iff, List.filterMap_eq_nil_iff]
  constructor
  · intro h id hmem
    have hwrite : writeOf? name (write id name) = some id := writeOf?_eq_some.2 rfl
    rw [h _ hmem] at hwrite
    cases hwrite
  · intro h e he
    rcases hw : writeOf? name e with - | id
    · rfl
    · exact absurd (writeOf?_eq_some.1 hw ▸ he) (h id)

def readIds (events : List Event) : List NameId :=
  events.filterMap fun
    | read id _ => some id
    | _ => none

def writeIds (events : List Event) : List NameId :=
  events.filterMap fun
    | write id _ => some id
    | _ => none

end Event

namespace Versions

open Event

variable {b : BlockId} {bs : List BlockId} {c : Counters} {es : List Event}
  {log : List (NameId × String × Nat)} {m : Merge} {matters : BlockId → List String}
  {merges : List Merge} {w' : Walk} {x : String} {names : List String}

/-! ### Counters -/

/-- The last version that was given to a name. -/
def given (counters : Counters) (name : String) : Nat := (counters.get? name).getD initial

theorem fresh_fst (counters : Counters) (name : String) :
    (fresh counters name).1 = given counters name + 1 := rfl

theorem given_fresh (counters : Counters) (name other : String) :
    given (fresh counters name).2 other =
      if name = other then given counters name + 1 else given counters other := by
  show ((counters.insert name _).get? other).getD initial = _
  rw [Table.get?_insert]
  split <;> rfl

theorem given_le_fresh (counters : Counters) (name other : String) :
    given counters other ≤ given (fresh counters name).2 other := by
  rw [given_fresh]
  split
  · next h => exact h ▸ Nat.le_succ _
  · exact le_rfl

/-! ### Merges -/

/-- Merges that were given versions while the counters went from one state to another. -/
structure Issued (counters counters' : Counters) (merges : List Merge) : Prop where
  le : ∀ name, given counters name ≤ given counters' name
  above : ∀ m ∈ merges, given counters m.name < m.version
  below : ∀ m ∈ merges, m.version ≤ given counters' m.name
  distinct : merges.Pairwise fun m m' => m.name = m'.name → m.version ≠ m'.version

theorem Issued.append {c' c'' : Counters} {later : List Merge} (h : Issued c c' merges)
    (h' : Issued c' c'' later) : Issued c c'' (merges ++ later) where
  le name := (h.le name).trans (h'.le name)
  above m hm := by
    rcases List.mem_append.1 hm with hm | hm
    · exact h.above m hm
    · exact (h.le m.name).trans_lt (h'.above m hm)
  below m hm := by
    rcases List.mem_append.1 hm with hm | hm
    · exact (h.below m hm).trans (h'.le m.name)
    · exact h'.below m hm
  distinct := by
    refine List.pairwise_append.2 ⟨h.distinct, h'.distinct, fun m hm m' hm' hname => ?_⟩
    refine ne_of_lt ((h.below m hm).trans_lt ?_)
    rw [hname]
    exact h'.above m' hm'

theorem Issued.nil (c : Counters) : Issued c c [] :=
  ⟨fun _ => le_rfl, fun _ h => absurd h List.not_mem_nil,
    fun _ h => absurd h List.not_mem_nil, List.Pairwise.nil⟩

theorem issued_one (c : Counters) (name : String) (b : BlockId) :
    Issued c (fresh c name).2 [⟨name, (fresh c name).1, b, []⟩] where
  le := given_le_fresh c name
  above m hm := by
    rw [List.mem_singleton.1 hm]
    exact Nat.lt_succ_self _
  below m hm := by
    rw [List.mem_singleton.1 hm, given_fresh, if_pos rfl]
    exact le_rfl
  distinct := List.pairwise_singleton _ _

theorem issued_mergesAt (b : BlockId) (c : Counters) (names : List String) :
    Issued c (mergesAt b c names).2 (mergesAt b c names).1 := by
  induction names generalizing c with
  | nil => exact .nil c
  | cons name names ih => exact (issued_one c name b).append (ih (fresh c name).2)

theorem issued_entryMerges (matters : BlockId → List String) (c : Counters) (bs : List BlockId) :
    Issued c (entryMerges matters c bs).2 (entryMerges matters c bs).1 := by
  induction bs generalizing c with
  | nil => exact .nil c
  | cons b bs ih => exact (issued_mergesAt b c (matters b)).append (ih _)

theorem mem_mergesAt (h : m ∈ (mergesAt b c names).1) : m.block = b ∧ m.name ∈ names := by
  induction names generalizing c with
  | nil => cases h
  | cons name names ih =>
    rcases List.mem_cons.1 h with rfl | h
    · exact ⟨rfl, List.mem_cons_self⟩
    · obtain ⟨hblock, hname⟩ := ih h
      exact ⟨hblock, List.mem_cons_of_mem name hname⟩

theorem exists_mem_mergesAt (h : x ∈ names) :
    ∃ m ∈ (mergesAt b c names).1, m.block = b ∧ m.name = x := by
  induction names generalizing c with
  | nil => cases h
  | cons name names ih =>
    rcases List.mem_cons.1 h with rfl | h
    · exact ⟨⟨x, (fresh c x).1, b, []⟩, List.mem_cons_self, rfl, rfl⟩
    · obtain ⟨m, hm, hmerge⟩ := ih h
      exact ⟨m, List.mem_cons_of_mem _ hm, hmerge⟩

theorem mem_entryMerges (h : m ∈ (entryMerges matters c bs).1) :
    m.block ∈ bs ∧ m.name ∈ matters m.block := by
  induction bs generalizing c with
  | nil => cases h
  | cons b bs ih =>
    rcases List.mem_append.1 h with h | h
    · obtain ⟨rfl, hname⟩ := mem_mergesAt h
      exact ⟨List.mem_cons_self, hname⟩
    · obtain ⟨hblock, hname⟩ := ih h
      exact ⟨List.mem_cons_of_mem b hblock, hname⟩

theorem exists_mem_entryMerges (hb : b ∈ bs) (hx : x ∈ matters b) :
    ∃ m ∈ (entryMerges matters c bs).1, m.block = b ∧ m.name = x := by
  induction bs generalizing c with
  | nil => cases hb
  | cons b' bs ih =>
    rcases List.mem_cons.1 hb with rfl | hb
    · obtain ⟨m, hm, hmerge⟩ := exists_mem_mergesAt hx
      exact ⟨m, List.mem_append_left _ hm, hmerge⟩
    · obtain ⟨m, hm, hmerge⟩ := ih hb
      exact ⟨m, List.mem_append_right _ hm, hmerge⟩

theorem get?_atEntry {v : Nat} (h : (atEntry merges b).get? x = some v) :
    ∃ m ∈ merges, m.block = b ∧ m.name = x ∧ m.version = v := by
  obtain ⟨m, hm, heq⟩ := List.mem_map.1 (Table.mem_entries_of_get? h)
  obtain ⟨hm, hblock⟩ := List.mem_filter.1 hm
  cases heq
  exact ⟨m, hm, of_decide_eq_true hblock, rfl, rfl⟩

theorem exists_get?_atEntry (hm : m ∈ merges) :
    ∃ v, (atEntry merges m.block).get? m.name = some v := by
  refine Table.isSome_get?_of_mem (a := m.version) (List.mem_map.2 ⟨m, ?_, rfl⟩)
  exact List.mem_filter.2 ⟨hm, decide_eq_true rfl⟩

/-! ### The walk over events -/

/-- What holds of a walk that has taken some events of a block since its start. -/
structure Tracks (locals : List String) (base : Counters) (entry : Current) (before : List Event)
    (w : Walk) : Prop where
  le : ∀ name, given base name ≤ given w.counters name
  /-- A local that was written has the version of its last write, which no merge has. -/
  written : ∀ x ∈ locals, ∀ id, lastWrite x before = some id →
    ∃ v, w.current.get? x = some v ∧ (id, v) ∈ w.writes ∧ given base x < v
  unwritten : ∀ x ∈ locals, lastWrite x before = none → w.current.get? x = entry.get? x

variable {locals : List String} {base : Counters} {entry : Current} {before : List Event} {w : Walk}

/-- One event. -/
theorem Tracks.take (h : Tracks locals base entry before w) (e : Event) :
    Tracks locals base entry (before ++ [e]) (w.take locals e) := by
  have hquiet : ∀ w' : Walk, w'.counters = w.counters → w'.writes = w.writes →
      w'.current = w.current → (∀ x ∈ locals, writeOf? x e = none) →
      Tracks locals base entry (before ++ [e]) w' := by
    intro w' hcounters hwrites hcurrent hnone
    have hlast : ∀ x ∈ locals, lastWrite x (before ++ [e]) = lastWrite x before := by
      intro x hx
      rw [lastWrite_append, lastWrite_singleton, hnone x hx, none_or]
    refine ⟨fun name => hcounters ▸ h.le name, fun x hx id hid => ?_, fun x hx hno => ?_⟩
    · rw [hlast x hx] at hid
      rw [hcurrent, hwrites]
      exact h.written x hx id hid
    · rw [hlast x hx] at hno
      rw [hcurrent]
      exact h.unwritten x hx hno
  cases e with
  | read id name =>
    rw [Walk.take]
    split <;> exact hquiet _ rfl rfl rfl fun _ _ => rfl
  | yields => exact hquiet _ rfl rfl rfl fun _ _ => rfl
  | write id name =>
    rw [Walk.take]
    split
    · next hname =>
      refine ⟨fun other => ?_, fun x hx id' hid => ?_, fun x hx hno => ?_⟩
      · exact (h.le other).trans (given_le_fresh w.counters name other)
      · rw [lastWrite_append, lastWrite_singleton] at hid
        show ∃ v, (w.current.insert name _).get? x = some v ∧ _
        rw [Table.get?_insert]
        by_cases heq : name = x
        · subst heq
          rw [writeOf?, if_pos rfl, some_or, some_inj] at hid
          subst hid
          exact ⟨_, if_pos rfl, List.mem_cons_self, Nat.lt_succ_of_le (h.le name)⟩
        · rw [writeOf?, if_neg heq, none_or] at hid
          obtain ⟨v, hcurrent, hmem, hlt⟩ := h.written x hx id' hid
          exact ⟨v, (if_neg heq).trans hcurrent, List.mem_cons_of_mem _ hmem, hlt⟩
      · rw [lastWrite_append, lastWrite_singleton] at hno
        show (w.current.insert name _).get? x = _
        rw [Table.get?_insert]
        by_cases heq : name = x
        · rw [writeOf?, if_pos heq, some_or] at hno
          cases hno
        · rw [writeOf?, if_neg heq, none_or] at hno
          exact (if_neg heq).trans (h.unwritten x hx hno)
    · next hname =>
      refine hquiet _ rfl rfl rfl fun x hx => if_neg fun heq => hname ?_
      exact heq ▸ hx

theorem Tracks.foldl_take (h : Tracks locals base entry before w) (es : List Event) :
    Tracks locals base entry (before ++ es) (es.foldl (Walk.take locals) w) := by
  induction es generalizing before w with
  | nil => rwa [List.append_nil]
  | cons e es ih =>
    rw [List.foldl_cons, List.append_cons]
    exact ih (h.take e)

/-- One walk has recorded all that another has. -/
structure Records (w w' : Walk) : Prop where
  reads : ∀ r ∈ w.reads, r ∈ w'.reads
  writes : ∀ p ∈ w.writes, p ∈ w'.writes

theorem Records.trans {w'' : Walk} (h : Records w w') (h' : Records w' w'') : Records w w'' :=
  ⟨fun r hr => h'.reads r (h.reads r hr), fun p hp => h'.writes p (h.writes p hp)⟩

theorem Records.of_eq (hreads : w'.reads = w.reads) (hwrites : w'.writes = w.writes) :
    Records w w' :=
  ⟨fun _ h => hreads ▸ h, fun _ h => hwrites ▸ h⟩

theorem records_take (w : Walk) (e : Event) : Records w (w.take locals e) := by
  cases e with
  | read id name =>
    rw [Walk.take]
    split
    · exact ⟨fun r hr => List.mem_cons_of_mem _ hr, fun _ hp => hp⟩
    · exact .of_eq rfl rfl
  | write id name =>
    rw [Walk.take]
    split
    · exact ⟨fun _ hr => hr, fun p hp => List.mem_cons_of_mem _ hp⟩
    · exact .of_eq rfl rfl
  | yields => exact .of_eq rfl rfl

theorem records_foldl_take (w : Walk) (es : List Event) :
    Records w (es.foldl (Walk.take locals) w) := by
  induction es generalizing w with
  | nil => exact .of_eq rfl rfl
  | cons e es ih => exact (records_take w e).trans (ih _)

/-! ### The walk over blocks -/

variable {events : List (List Event)} {merges : List Merge}

def eventsOf (events : List (List Event)) (b : BlockId) : List Event := events[b.index]?.getD []

/-- How a walk over blocks looks at one of them: it starts with the versions at the start of the
block, takes its events, and keeps the versions at the end and all records. -/
structure Visits (events : List (List Event)) (locals : List String) (merges : List Merge)
    (base : Counters) (b : BlockId) (exits : List (BlockId × Current)) (last : Walk) (w : Walk) :
    Prop where
  le : ∀ name, given base name ≤ given w.counters name
  current : w.current = atEntry merges b
  exit : (b, ((eventsOf events b).foldl (Walk.take locals) w).current) ∈ exits
  records : Records ((eventsOf events b).foldl (Walk.take locals) w) last

theorem walkBlocks_spec (hle : ∀ name, given base name ≤ given w.counters name) :
    Records w (walkBlocks events locals merges w bs).1 ∧
      (walkBlocks events locals merges w bs).2.map Prod.fst = bs ∧
      ∀ b ∈ bs, ∃ w', Visits events locals merges base b (walkBlocks events locals merges w bs).2
        (walkBlocks events locals merges w bs).1 w' := by
  induction bs generalizing w with
  | nil => exact ⟨.of_eq rfl rfl, rfl, fun b hb => nomatch hb⟩
  | cons b bs ih =>
    set start : Walk := { w with current := atEntry merges b } with hstart
    set next : Walk := (eventsOf events b).foldl (Walk.take locals) start with hnext
    have htracks : Tracks locals base (atEntry merges b) [] start :=
      ⟨hle, fun _ _ _ h => absurd h nofun, fun _ _ _ => rfl⟩
    obtain ⟨hrecords, hkeys, hvisits⟩ := ih (htracks.foldl_take (eventsOf events b)).le
    have hwalk : walkBlocks events locals merges w (b :: bs) =
        ((walkBlocks events locals merges next bs).1,
          (b, next.current) :: (walkBlocks events locals merges next bs).2) := rfl
    rw [hwalk]
    refine ⟨?_, by rw [List.map_cons, hkeys], fun b' hb' => ?_⟩
    · have hfirst : Records w next :=
        (Records.of_eq rfl rfl : Records w start).trans (records_foldl_take start _)
      exact hfirst.trans hrecords
    · rcases List.mem_cons.1 hb' with rfl | hb'
      · exact ⟨start, hle, rfl, List.mem_cons_self, hrecords⟩
      · obtain ⟨w', hw'⟩ := hvisits b' hb'
        exact ⟨w', { hw' with exit := List.mem_cons_of_mem _ hw'.exit }⟩

/-! ### Which occurrences are recorded -/

open scoped List

theorem reads_take (w : Walk) (e : Event) : ((w.take locals e).reads.map Prod.fst).reverse <+
      (w.reads.map Prod.fst).reverse ++ readIds [e] := by
  cases e with
  | read id name =>
    rw [Walk.take]
    split
    · rw [List.map_cons, List.reverse_cons]
      exact .refl _
    · exact List.sublist_append_left _ _
  | write id name =>
    rw [Walk.take]
    split <;> exact List.sublist_append_left _ _
  | yields => exact List.sublist_append_left _ _

theorem writes_take (w : Walk) (e : Event) : ((w.take locals e).writes.map Prod.fst).reverse <+
      (w.writes.map Prod.fst).reverse ++ writeIds [e] := by
  cases e with
  | read id name =>
    rw [Walk.take]
    split <;> exact List.sublist_append_left _ _
  | write id name =>
    rw [Walk.take]
    split
    · rw [List.map_cons, List.reverse_cons]
      exact .refl _
    · exact List.sublist_append_left _ _
  | yields => exact List.sublist_append_left _ _

theorem readIds_append (es es' : List Event) : readIds (es ++ es') = readIds es ++ readIds es' :=
  List.filterMap_append

theorem writeIds_append (es es' : List Event) : writeIds (es ++ es') = writeIds es ++ writeIds es' :=
  List.filterMap_append

/-- A walk records occurrences in the order of the events. -/
theorem recorded_foldl_take (w : Walk) (es : List Event) :
    ((es.foldl (Walk.take locals) w).reads.map Prod.fst).reverse <+
        (w.reads.map Prod.fst).reverse ++ readIds es ∧
      ((es.foldl (Walk.take locals) w).writes.map Prod.fst).reverse <+
        (w.writes.map Prod.fst).reverse ++ writeIds es := by
  induction es generalizing w with
  | nil => simp [readIds, writeIds]
  | cons e es ih =>
    obtain ⟨hreads, hwrites⟩ := ih (w.take locals e)
    rw [List.foldl_cons, ← List.singleton_append, readIds_append, writeIds_append,
      ← List.append_assoc, ← List.append_assoc]
    exact ⟨hreads.trans ((reads_take w e).append_right _),
      hwrites.trans ((writes_take w e).append_right _)⟩

theorem recorded_walkBlocks (w : Walk) (bs : List BlockId) :
    ((walkBlocks events locals merges w bs).1.reads.map Prod.fst).reverse <+
        (w.reads.map Prod.fst).reverse ++ readIds (bs.flatMap (eventsOf events)) ∧
      ((walkBlocks events locals merges w bs).1.writes.map Prod.fst).reverse <+
        (w.writes.map Prod.fst).reverse ++ writeIds (bs.flatMap (eventsOf events)) := by
  induction bs generalizing w with
  | nil => simp [walkBlocks, readIds, writeIds]
  | cons b bs ih =>
    have hblock := @recorded_foldl_take locals { w with current := atEntry merges b }
      (eventsOf events b)
    have hrest := ih ((eventsOf events b).foldl (Walk.take locals)
      { w with current := atEntry merges b })
    rw [List.flatMap_cons, readIds_append, writeIds_append, ← List.append_assoc, ← List.append_assoc]
    exact ⟨hrest.1.trans (hblock.1.append_right _), hrest.2.trans (hblock.2.append_right _)⟩

/-! ### Versions of writes -/

/-- What a walk has recorded for some events: reads of locals, and writes of locals with versions of
their own above those given out before.  The log of the writes also has the names. -/
structure Logged (locals : List String) (base : Counters) (w : Walk) (events : List Event)
    (log : List (NameId × String × Nat)) : Prop where
  le : ∀ x, given base x ≤ given w.counters x
  current : ∀ x v, w.current.get? x = some v → x ∈ locals
  reads : ∀ id x v, (id, x, v) ∈ w.reads → x ∈ locals ∧ read id x ∈ events
  writes : w.writes = log.map fun (id, _, v) => (id, v)
  sound : ∀ id x v, (id, x, v) ∈ log → x ∈ locals ∧ write id x ∈ events
  complete : ∀ id x, write id x ∈ events → x ∈ locals → ∃ v, (id, x, v) ∈ log
  above : ∀ id x v, (id, x, v) ∈ log → given base x < v
  below : ∀ id x v, (id, x, v) ∈ log → v ≤ given w.counters x
  distinct : log.Pairwise fun p p' => p.2.1 = p'.2.1 → p.2.2 ≠ p'.2.2

theorem Logged.quiet (h : Logged locals base w es log) (hwrites : w'.writes = w.writes)
    (hcounters : w'.counters = w.counters) (hcurrent : w'.current = w.current)
    (hreads : ∀ id x v, (id, x, v) ∈ w'.reads → (id, x, v) ∈ w.reads ∨ x ∈ locals ∧ e = read id x)
    (he : ∀ id x, e = write id x → x ∉ locals) : Logged locals base w' (es ++ [e]) log where
  le := hcounters ▸ h.le
  current := hcurrent ▸ h.current
  reads id x v hr := by
    rcases hreads id x v hr with hr | ⟨hx, rfl⟩
    · exact ⟨(h.reads id x v hr).1, List.mem_append_left _ (h.reads id x v hr).2⟩
    · exact ⟨hx, List.mem_append_right _ List.mem_cons_self⟩
  writes := hwrites.trans h.writes
  sound id x v hmem := ⟨(h.sound id x v hmem).1, List.mem_append_left _ (h.sound id x v hmem).2⟩
  complete id x hmem hx := by
    rcases List.mem_append.1 hmem with hmem | hmem
    · exact h.complete id x hmem hx
    · exact absurd hx (he id x (List.mem_singleton.1 hmem).symm)
  above := h.above
  below id x v hmem := hcounters ▸ h.below id x v hmem
  distinct := h.distinct

theorem Logged.write (h : Logged locals base w es log) (id : NameId) (hname : name ∈ locals) :
    Logged locals base (w.take locals (.write id name)) (es ++ [.write id name])
      ((id, name, (fresh w.counters name).1) :: log) := by
  rw [Walk.take, if_pos hname]
  refine ⟨fun x => (h.le x).trans (given_le_fresh _ _ _), fun x v hx => ?_, fun id' x v hr => ?_, ?_,
    fun id' x v hmem => ?_, fun id' x hmem hx => ?_, fun id' x v hmem => ?_, fun id' x v hmem => ?_, ?_⟩
  · replace hx : (w.current.insert name _).get? x = some v := hx
    rw [Table.get?_insert] at hx
    split at hx
    · next heq => exact heq ▸ hname
    · exact h.current x v hx
  · exact ⟨(h.reads id' x v hr).1, List.mem_append_left _ (h.reads id' x v hr).2⟩
  · show (id, (fresh w.counters name).1) :: w.writes = _
    rw [h.writes, List.map_cons]
  · rcases List.mem_cons.1 hmem with heq | hmem
    · cases heq
      exact ⟨hname, List.mem_append_right _ List.mem_cons_self⟩
    · exact ⟨(h.sound id' x v hmem).1, List.mem_append_left _ (h.sound id' x v hmem).2⟩
  · rcases List.mem_append.1 hmem with hmem | hmem
    · obtain ⟨v, hv⟩ := h.complete id' x hmem hx
      exact ⟨v, List.mem_cons_of_mem _ hv⟩
    · cases List.mem_singleton.1 hmem
      exact ⟨_, List.mem_cons_self⟩
  · rcases List.mem_cons.1 hmem with heq | hmem
    · cases heq
      exact Nat.lt_succ_of_le (h.le name)
    · exact h.above id' x v hmem
  · show v ≤ given (fresh w.counters name).2 x
    rcases List.mem_cons.1 hmem with heq | hmem
    · cases heq
      rw [given_fresh, if_pos rfl, fresh_fst]
    · exact (h.below id' x v hmem).trans (given_le_fresh _ _ _)
  · refine List.pairwise_cons.2 ⟨fun p hp hsame => ?_, h.distinct⟩
    obtain ⟨id', x, v⟩ := p
    cases hsame
    exact (Nat.lt_succ_of_le (h.below id' name v hp)).ne'

theorem Logged.take (h : Logged locals base w es log) (e : Event) :
    ∃ log', Logged locals base (w.take locals e) (es ++ [e]) log' := by
  cases e with
  | read id name =>
    refine ⟨log, ?_⟩
    rw [Walk.take]
    split
    · next v hv =>
      refine h.quiet rfl rfl rfl (fun id' x v' hr => ?_) fun _ _ h => nomatch h
      rcases List.mem_cons.1 hr with heq | hr
      · cases heq
        exact .inr ⟨h.current name v hv, rfl⟩
      · exact .inl hr
    · exact h.quiet rfl rfl rfl (fun _ _ _ => .inl) fun _ _ h => nomatch h
  | yields => exact ⟨log, h.quiet rfl rfl rfl (fun _ _ _ => .inl) fun _ _ h => nomatch h⟩
  | write id name =>
    by_cases hname : name ∈ locals
    · exact ⟨_, h.write id hname⟩
    · refine ⟨log, ?_⟩
      rw [Walk.take, if_neg hname]
      refine h.quiet rfl rfl rfl (fun _ _ _ => .inl) fun id' x heq => ?_
      cases heq
      exact hname

theorem Logged.foldl_take (h : Logged locals base w before log) (es : List Event) :
    ∃ log', Logged locals base (es.foldl (Walk.take locals) w) (before ++ es) log' := by
  induction es generalizing before w log with
  | nil => exact ⟨log, by rwa [List.append_nil]⟩
  | cons e es ih =>
    obtain ⟨log', h'⟩ := h.take e
    rw [List.foldl_cons, List.append_cons]
    exact ih h'

theorem Logged.walkBlocks (h : Logged locals base w before log) (hmerges : ∀ m ∈ merges, m.name ∈ locals)
    (bs : List BlockId) : ∃ log', Logged locals base (walkBlocks events locals merges w bs).1
      (before ++ bs.flatMap (eventsOf events)) log' := by
  induction bs generalizing before w log with
  | nil => exact ⟨log, by rwa [List.flatMap_nil, List.append_nil]⟩
  | cons b bs ih =>
    have hstart : Logged locals base { w with current := atEntry merges b } before log := by
      refine { h with current := fun x v hx => ?_ }
      obtain ⟨m, hm, -, rfl, -⟩ := get?_atEntry hx
      exact hmerges m hm
    obtain ⟨log', h'⟩ := hstart.foldl_take (eventsOf events b)
    rw [List.flatMap_cons, ← List.append_assoc]
    exact ih h'

end Versions

end FlowTyping
