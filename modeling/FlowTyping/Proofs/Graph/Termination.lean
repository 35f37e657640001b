/-
The work list runs empty.

Every turn either leaves all sets, rules and tables as they are, and then the work list is one node
shorter, or something new comes to hold for good (`turn_progress`).  What can ever come to hold is
bounded from the start: rules make up no types beyond a finite stock (`closed_stock`), no member
gets a name that is neither in a table nor written to somewhere, and a node is added only for a
member that a class lacks (`Within`).  So the open facts, each weighted with more than the work list
can hold, and the length of the work list together fall with every turn (`room_turn_lt`), and
`budget` is more than that sum at the start.
-/
import FlowTyping.Proofs.Graph.Settled

namespace FlowTyping

open List

variable {α : Type}

theorem length_flatMap_eq_total {β : Type} (f : α → List β) (as : List α) :
    (as.flatMap f).length = total (fun a => (f a).length) as := by
  induction as with
  | nil => rfl
  | cons a as ih => rw [flatMap_cons, length_append, ih, total_cons]

theorem le_total_of_mem (measure : α → Nat) {a : α} {as : List α} (h : a ∈ as) :
    measure a ≤ total measure as := by
  induction as with
  | nil => exact absurd h not_mem_nil
  | cons b bs ih =>
    rw [total_cons]
    rcases mem_cons.1 h with rfl | h
    · exact Nat.le_add_right _ _
    · exact le_trans (ih h) (Nat.le_add_left _ _)

theorem total_le_total {f k : α → Nat} (as : List α) (h : ∀ a, f a ≤ k a) :
    total f as ≤ total k as := by
  induction as with
  | nil => exact le_rfl
  | cons a as ih => exact add_le_add (h a) ih

namespace Graph

variable {g g' g₀ : Graph} {D : NodeId → Prop} {attr name : String} {c d : ClassId}
  {id object value : NodeId} {info : ClassInfo} {rest : List NodeId} {t : Ty} {m member : Member}

/-! ### The stock of types -/

def builtinStock : List Ty :=
  .any :: (Kind.all.map .base ++ Kind.all.map .builtinType ++
    Kind.all.flatMap fun k => (Builtin.methods k).map fun e => .builtinMethod k e.1)

theorem length_builtinStock : builtinStock.length = 129 := by
  simp [builtinStock, Kind.all, Builtin.methods, Builtin.giving]

/-- All types that rules can come to in a graph. -/
def stock (g : Graph) : List Ty :=
  builtinStock ++ g.nodes.toList.flatMap (·.types.toList) ++
    ((List.range g.classes.size).flatMap fun i => [.classObject ⟨i⟩, .instanceOf ⟨i⟩]) ++
    ((List.range g.functions.size).flatMap fun i => [.function ⟨i⟩, .method ⟨i⟩]) ++
    (List.range g.modules.size).map fun i => .moduleObject ⟨i⟩

theorem mem_stock : t ∈ g.stock ↔ t ∈ builtinStock ∨ (∃ n ∈ g.nodes.toList, t ∈ n.types) ∨
      (∃ i < g.classes.size, t = .classObject ⟨i⟩ ∨ t = .instanceOf ⟨i⟩) ∨
      (∃ i < g.functions.size, t = .function ⟨i⟩ ∨ t = .method ⟨i⟩) ∨
      ∃ i < g.modules.size, t = .moduleObject ⟨i⟩ := by
  simp only [stock, mem_append, mem_flatMap, mem_map, mem_range,
    mem_cons, not_mem_nil, or_false, TypeSet.mem_def, or_assoc, eq_comm]

theorem mem_stock_of_types (h : t ∈ g.types id) : t ∈ g.stock := by
  obtain ⟨n, hn⟩ := hasNode_iff.1 (hasNode_of_mem_types h)
  rw [types_of_node? hn] at h
  exact mem_stock.2 (.inr (.inl ⟨n, Array.mem_toList_iff.2 (Array.mem_of_getElem? hn), h⟩))

theorem hasType_of_mem_builtinStock (h : t ∈ builtinStock) : g.HasType t := by
  simp only [builtinStock, mem_cons, mem_append, mem_map, mem_flatMap] at h
  rcases h with rfl | (⟨k, -, rfl⟩ | ⟨k, -, rfl⟩) | ⟨k, -, e, -, rfl⟩ <;> trivial

theorem Valid.hasType_of_mem_stock (hv : g.Valid) (h : t ∈ g.stock) : g.HasType t := by
  rcases mem_stock.1 h with h | ⟨n, hn, h⟩ | ⟨i, hi, rfl | rfl⟩ | ⟨i, hi, rfl | rfl⟩ | ⟨i, hi, rfl⟩
  · exact hasType_of_mem_builtinStock h
  · obtain ⟨i, hi, rfl⟩ := mem_iff_getElem.1 hn
    refine hv.types ⟨i⟩ t ?_
    rw [Array.length_toList] at hi
    rw [types_of_node? (Array.getElem?_eq_getElem hi)]
    exact h
  · exact hi
  · exact hi
  · exact hi
  · exact hi
  · exact hi

/-- **Rules make up no types beyond the stock.** -/
theorem closed_stock (hv : g.Valid) : Closed g (· ∈ g.stock) := by
  have hbuiltin : ∀ t ∈ builtinStock, t ∈ g.stock := fun t ht => mem_stock.2 (.inl ht)
  refine ⟨hbuiltin _ ?_, fun k => hbuiltin _ ?_, fun k => hbuiltin _ ?_,
    fun k attr hmethod => hbuiltin _ ?_, fun c hc => ?_, fun c hc => ?_, fun f hf => ?_,
    fun m info name sub hm hsub => ?_⟩
  · simp [builtinStock]
  · simp [builtinStock, Kind.mem_all k]
  · simp [builtinStock, Kind.mem_all k]
  · simp only [builtinStock, mem_cons, mem_append, mem_flatMap]
    refine .inr (.inr ⟨k, Kind.mem_all k, ?_⟩)
    obtain ⟨r, hr⟩ := Option.isSome_iff_exists.1 hmethod
    exact mem_map.2 ⟨(attr, r), mem_of_lookup_eq_some hr, rfl⟩
  · exact mem_stock.2 (.inr (.inr (.inl ⟨c.index, hv.hasType_of_mem_stock hc, .inl rfl⟩)))
  · exact mem_stock.2 (.inr (.inr (.inl ⟨c.index, hv.hasType_of_mem_stock hc, .inr rfl⟩)))
  · exact mem_stock.2
      (.inr (.inr (.inr (.inl ⟨f.index, hv.hasType_of_mem_stock hf, .inr rfl⟩))))
  · have hlt := (hv.modules m info hm).submodules _ (Table.mem_entries_of_get? hsub)
    exact mem_stock.2 (.inr (.inr (.inr (.inr ⟨sub.index, hlt, rfl⟩))))

theorem length_stock_le (g : Graph) : g.stock.length ≤ 2 * g.weight := by
  have hclasses : ((List.range g.classes.size).flatMap fun i =>
      [Ty.classObject ⟨i⟩, .instanceOf ⟨i⟩]).length = g.classes.size * 2 := by
    simp [length_flatMap]
  have hfunctions : ((List.range g.functions.size).flatMap fun i =>
      [Ty.function ⟨i⟩, .method ⟨i⟩]).length = g.functions.size * 2 := by
    simp [length_flatMap]
  have hmodules : g.modules.size ≤
      total (fun info => info.exports.size + info.submodules.size + 1) g.modules.toList := by
    rw [← Array.length_toList]
    induction g.modules.toList with
    | nil => exact le_rfl
    | cons m ms ih =>
      rw [length_cons, total_cons]
      omega
  have hsets : (g.nodes.toList.flatMap (·.types.toList)).length =
      total (·.types.size) g.nodes.toList := length_flatMap_eq_total _ _
  simp only [stock, length_append, length_builtinStock, hsets, length_map,
    length_range, hclasses, hfunctions]
  unfold weight
  omega

/-! ### What a run stays within -/

def attrs (g : Graph) : List String :=
  g.nodes.toList.filterMap fun n =>
    match n.rule with
    | .write _ attr _ => some attr
    | _ => none

theorem mem_attrs (h : g.rule? id = some (.write object attr value)) : attr ∈ g.attrs := by
  obtain ⟨n, hn, hr⟩ := rule?_eq_some_iff.1 h
  refine mem_filterMap.2 ⟨n, Array.mem_toList_iff.2 (Array.mem_of_getElem? hn), ?_⟩
  rw [hr]

/-- The names that members have or can get. -/
def names (g : Graph) : List String :=
  (g.classes.toList.flatMap fun info => info.members.entries.map (·.1)) ++ g.attrs

theorem mem_names_of_member? (h : g.member? c name = some m) : name ∈ g.names := by
  obtain ⟨info, hc, hget⟩ := Option.bind_eq_some_iff.1 h
  refine mem_append_left _ (mem_flatMap.2 ⟨info, ?_, ?_⟩)
  · exact Array.mem_toList_iff.2 (Array.mem_of_getElem? hc)
  · exact mem_map.2 ⟨(name, m), Table.mem_entries_of_get? hget, rfl⟩

/-- The pairs of a class and an attribute that is written to, for which the class has a member. -/
def served (g₀ g : Graph) : Finset (Nat × String) :=
  (Finset.range g₀.classes.size ×ˢ g₀.attrs.toFinset).filter fun p =>
    (g.member? ⟨p.1⟩ p.2).isSome = true

theorem mem_served : (c.index, attr) ∈ served g₀ g ↔
      (c.index < g₀.classes.size ∧ attr ∈ g₀.attrs) ∧ (g.member? c attr).isSome = true := by
  simp only [served, Finset.mem_filter, Finset.mem_product, Finset.mem_range, mem_toFinset]

theorem card_served_le (g₀ g : Graph) : (served g₀ g).card ≤ g₀.classes.size * g₀.attrs.length := by
  calc (served g₀ g).card
      ≤ (Finset.range g₀.classes.size ×ˢ g₀.attrs.toFinset).card := Finset.card_filter_le _ _
    _ = g₀.classes.size * g₀.attrs.toFinset.card := by
        rw [Finset.card_product, Finset.card_range]
    _ ≤ g₀.classes.size * g₀.attrs.length :=
        Nat.mul_le_mul_left _ (toFinset_card_le _)

theorem Extends.served_subset (h : Extends g g') : served g₀ g ⊆ served g₀ g' := by
  rintro ⟨c, attr⟩ hp
  obtain ⟨hin, hsome⟩ := (mem_served (c := ⟨c⟩)).1 hp
  obtain ⟨m, hm⟩ := Option.isSome_iff_exists.1 hsome
  obtain ⟨m', hm', -⟩ := h.member? hm
  exact (mem_served (c := ⟨c⟩)).2 ⟨hin, Option.isSome_iff_exists.2 ⟨m', hm'⟩⟩

/-- What holds along a run that starts in `g₀`.  A node is added only for a member that a class
lacks, so the nodes are counted against the members. -/
structure Within (g₀ g : Graph) : Prop where
  grown : Extends g₀ g
  nodes : g.nodes.size ≤ g₀.nodes.size + (served g₀ g).card
  types : ∀ id t, t ∈ g.types id → t ∈ g₀.stock
  attrs : ∀ id object attr value, g.rule? id = some (.write object attr value) → attr ∈ g₀.attrs
  names : ∀ c name m, g.member? c name = some m → name ∈ g₀.names

theorem Within.start (g : Graph) : Within g g :=
  ⟨.refl g, Nat.le_add_right _ _, fun _ _ => mem_stock_of_types, fun _ _ _ _ => mem_attrs,
    fun _ _ _ => mem_names_of_member?⟩

theorem Within.of_same (h : Within g₀ g) (hs : Same g g')
    (hdep : ∀ id d, d ∈ g.dependents id → d ∈ g'.dependents id) : Within g₀ g' := by
  have hext : Extends g g' := .of_same hs hdep
  refine ⟨h.grown.trans hext, ?_, fun id t ht => ?_, fun id object attr value hr => ?_,
    fun c name m hm => ?_⟩
  · rw [hs.size]
    exact Nat.le_trans h.nodes (Nat.add_le_add_left (Finset.card_le_card hext.served_subset) _)
  · rw [hs.types] at ht
    exact h.types id t ht
  · rw [hs.rule?] at hr
    exact h.attrs id object attr value hr
  · rw [hs.member?] at hm
    exact h.names c name m hm

/-- No rule becomes a write. -/
theorem Move.rule?_write (m : Move D g g') (h : g'.rule? id = some (.write object attr value)) :
    g.rule? id = some (.write object attr value) := by
  cases m with
  | tally a b | inherit hc hnode hposition hname hbetter hD | link hc ha hb hnew | openUp hc hclosed hD => exact h
  | subscribe hd s =>
    rw [(Same.subscribe g _ s).rule?] at h
    exact h
  | grow hid hT hnew hD =>
    rw [rule?_putTypes] at h
    exact h
  | connect hr hnew hin =>
    rw [(Same.schedule _ _).rule?, (Same.subscribe _ _ _).rule?, rule?_setRule] at h
    split at h
    · next he =>
      subst he
      rw [hr] at h
      cases h
    · exact h
  | newMember line hc hnone hattr =>
    rw [(Same.touchClass _ _).rule?] at h
    change (g.push (.plain []) line).2.rule? id = _ at h
    rw [rule?_push] at h
    split at h
    · cases h
    · exact h

theorem member?_modifyClass_of_members {f : ClassInfo → ClassInfo}
    (hf : ∀ info, (f info).members = info.members) :
    (g.modifyClass c f).member? d name = g.member? d name := by
  rw [member?, member?, class?_modifyClass]
  by_cases hcd : c = d
  · rw [if_pos hcd]
    rcases g.class? d with - | info
    · rfl
    · simp only [Option.map_some, Option.bind_some, hf]
  · rw [if_neg hcd]

theorem member?_setMember {name' : String}
    (h : (g.setMember c name member).member? d name' = some m) :
    name' = name ∨ g.member? d name' = some m := by
  rw [member?, setMember, class?_modifyClass] at h
  by_cases hcd : c = d
  · rw [if_pos hcd] at h
    obtain ⟨info, hinfo, hget⟩ := Option.bind_eq_some_iff.1 h
    obtain ⟨info', hd, rfl⟩ := Option.map_eq_some_iff.1 hinfo
    simp only [Table.get?_insert] at hget
    split at hget
    · next he => exact .inl he.symm
    · exact .inr (Option.bind_eq_some_iff.2 ⟨info', hd, hget⟩)
  · rw [if_neg hcd] at h
    exact .inr h

/-- A member has a name that was there already or that is written to. -/
theorem Move.member?_name (m : Move D g g') (h : g'.member? c name = some member) :
    (∃ d old, g.member? d name = some old) ∨
      ∃ id object value, g.rule? id = some (.write object name value) := by
  cases m with
  | tally a b | subscribe hd s | grow hid hT hnew hD => exact .inl ⟨c, member, h⟩
  | connect hr hnew hin =>
    rw [(Same.schedule _ _).member?] at h
    exact .inl ⟨c, member, h⟩
  | newMember line hc hnone hattr =>
    rw [(Same.touchClass _ _).member?] at h
    rcases member?_setMember h with rfl | h
    · exact .inr hattr
    · rw [member?_push] at h
      exact .inl ⟨c, member, h⟩
  | inherit hc hnode hposition hname hbetter hD =>
    rcases member?_setMember h with rfl | h
    · exact .inl hname
    · exact .inl ⟨c, member, h⟩
  | link hc ha hb hnew | openUp hc hclosed hD =>
    rw [member?_modifyClass_of_members] at h
    · exact .inl ⟨c, member, h⟩
    · exact fun _ => rfl

/-- A move adds no node, except together with a member that a class lacked. -/
theorem Move.size (m : Move D g g') : g'.nodes.size = g.nodes.size ∨
      (g'.nodes.size = g.nodes.size + 1 ∧ ∃ c attr, g.member? c attr = none ∧
        (g'.member? c attr).isSome = true ∧ c.index < g.classes.size ∧
        ∃ id object value, g.rule? id = some (.write object attr value)) := by
  cases m with
  | tally a b | inherit hc hnode hposition hname hbetter hD | link hc ha hb hnew
  | openUp hc hclosed hD => exact .inl rfl
  | subscribe hd s => exact .inl (Same.subscribe g _ s).size
  | grow hid hT hnew hD => exact .inl (size_putTypes g _ _)
  | connect hr hnew hin =>
    exact .inl (((Same.subscribe _ _ _).trans (Same.schedule _ _)).size.trans (size_setRule g _ _))
  | @newMember c info name line hc hnone hattr =>
    right
    refine ⟨?_, c, name, hnone, ?_, (Array.getElem?_eq_some_iff.1 hc).1, hattr⟩
    · rw [(Same.touchClass _ _).size]
      show (g.push (.plain []) line).2.nodes.size = _
      rw [(Same.push g _ line).size, size_append]
    · have hclass : (g.push (.plain []) line).2.class? c = some info := by
        rw [(tables_congr (classes_push g _ line)).1, hc]
      rw [(Same.touchClass _ _).member?, member?, setMember, class?_modifyClass, if_pos rfl, hclass]
      simp only [Option.map_some, Option.bind_some, Table.get?_insert_self, Option.isSome_some]

/-- A type that comes into a set can be derived. -/
theorem Move.types (m : Move D g g') (h : t ∈ g'.types id) : t ∈ g.types id ∨ g.Derivable t := by
  cases m with
  | tally a b | inherit hc hnode hposition hname hbetter hD | link hc ha hb hnew | openUp hc hclosed hD => exact .inl h
  | subscribe hd s =>
    rw [(Same.subscribe g _ s).types] at h
    exact .inl h
  | grow hid hT hnew hD => exact (mem_types_putTypes.1 h).imp_right fun ht => hT t ht.2.2
  | connect hr hnew hin =>
    rw [(Same.schedule _ _).types, (Same.subscribe _ _ _).types, types_setRule] at h
    exact .inl h
  | newMember line hc hnone hattr =>
    rw [(Same.touchClass _ _).types] at h
    change t ∈ (g.push (.plain []) line).2.types id at h
    rw [types_push] at h
    exact .inl h

section

variable (h : Within g₀ g)
include h

theorem Within.move (hv₀ : g₀.Valid) (m : Move D g g') : Within g₀ g' := by
  have hext := m.extends
  refine ⟨h.grown.trans hext, ?_, fun id t ht => ?_, fun id object attr value hr => ?_,
    fun c name member hm => ?_⟩
  · have hsub : served g₀ g ⊆ served g₀ g' := hext.served_subset
    have hnodes := h.nodes
    rcases m.size with hsize | ⟨hsize, c, attr, hnone, hsome, hc, id, object, value, hr⟩
    · have hcard := Finset.card_le_card hsub
      omega
    · have hnew : (c.index, attr) ∈ served g₀ g' :=
        mem_served.2 ⟨⟨h.grown.classCount ▸ hc, h.attrs id object attr value hr⟩, hsome⟩
      have hold : (c.index, attr) ∉ served g₀ g := by
        rw [mem_served, hnone]
        exact fun hp => absurd hp.2 (by simp)
      have hcard := Finset.card_lt_card ⟨hsub, fun hback => hold (hback hnew)⟩
      omega
  · by_cases hold : t ∈ g.types id
    · exact h.types id t hold
    · -- only a set that grows has a new type, and that one is derived
      have hclosed : Closed g (· ∈ g₀.stock) := by
        have hc := closed_stock hv₀
        refine { hc with submodule := fun m info name sub hm hsub => hc.submodule m info name sub ?_ hsub }
        rw [module?, h.grown.modules] at hm
        exact hm
      rcases m.types ht with ht | ht
      · exact absurd ht hold
      · exact ht _ hclosed h.types
  · exact h.attrs id object attr value (m.rule?_write hr)
  · rcases m.member?_name hm with ⟨d, old, hd⟩ | ⟨id, object, value, hr⟩
    · exact h.names d name old hd
    · exact mem_append_right _ (h.attrs id object name value hr)

theorem Within.moves (hv₀ : g₀.Valid) (m : Moves D g g') : Within g₀ g' := by
  induction m with
  | refl => exact h
  | tail _ hstep ih => exact ih.move hv₀ hstep

theorem Within.turn (hv₀ : g₀.Valid) (hv : g.Valid) (hw : g.worklist = id :: rest) :
    Within g₀ (g.turn id rest) := by
  have hpop : Within g₀ { g with worklist := rest } := h.of_same .counts fun _ _ hd => hd
  obtain ⟨hsame, hdependents⟩ := same_turn g id rest
  refine (hpop.moves hv₀ (recompute_moves (hv.pop hw) id).2).of_same hsame fun b d hd => ?_
  rw [hdependents]
  exact hd

/-! ### The facts that can come to hold -/

/-- No run from a graph has more nodes. -/
def nodeBound (g : Graph) : Nat := g.nodes.size + g.classes.size * g.attrs.length

/-- No class of a graph has more bases. -/
def baseBound (g : Graph) : Nat := total (·.bases.length) g.classes.toList

/-- All facts that can hold along a run. -/
def factBound (g : Graph) : Finset Fact :=
  (Finset.range g.nodeBound ×ˢ g.stock.toFinset).image (fun p => Fact.type ⟨p.1⟩ p.2) ∪
  (Finset.range g.nodeBound ×ˢ Finset.range g.nodeBound).image (fun p => Fact.input ⟨p.1⟩ ⟨p.2⟩) ∪
  (Finset.range g.classes.size ×ˢ g.names.toFinset ×ˢ Finset.range (g.baseBound + 1)).image
    (fun p => Fact.reached ⟨p.1⟩ p.2.1 p.2.2) ∪
  (Finset.range g.classes.size).image (fun c => Fact.opened ⟨c⟩) ∪
  (Finset.range g.classes.size ×ˢ Finset.range g.nodeBound ×ˢ Finset.range g.nodeBound).image
    (fun p => Fact.linked ⟨p.1⟩ ⟨p.2.1⟩ ⟨p.2.2⟩)

theorem Within.size_le : g.nodes.size ≤ g₀.nodeBound :=
  Nat.le_trans h.nodes (Nat.add_le_add_left (card_served_le g₀ g) _)

theorem Within.index_lt (hid : g.HasNode id) :
    id.index < g₀.nodeBound := lt_of_lt_of_le hid h.size_le

theorem Within.class_lt (hc : g.class? c = some info) : c.index < g₀.classes.size := by
  rw [← h.grown.classCount]
  exact (Array.getElem?_eq_some_iff.1 hc).1

theorem Within.bases_le (hc : g.class? c = some info) : info.bases.length ≤ g₀.baseBound := by
  obtain ⟨info₀, hc₀⟩ := class?_isSome (h.class_lt hc)
  obtain ⟨info', hc', hinfo⟩ := h.grown.classes c info₀ hc₀
  rw [hc] at hc'
  cases hc'
  rw [hinfo.bases]
  exact le_total_of_mem (fun info => info.bases.length)
    (Array.mem_toList_iff.2 (Array.mem_of_getElem? hc₀))

theorem Within.mem_factBound {fact : Fact} (hv : g.Valid) (hholds : fact.Holds g) :
    fact ∈ g₀.factBound := by
  simp only [factBound, Finset.mem_union, Finset.mem_image, Finset.mem_product, Finset.mem_range,
    mem_toFinset, Prod.exists]
  cases fact with
  | type id t =>
    have hid := h.index_lt (hasNode_of_mem_types hholds)
    exact .inl (.inl (.inl (.inl ⟨id.index, t, ⟨hid, h.types id t hholds⟩, rfl⟩)))
  | input id source =>
    obtain ⟨inputs, hr, hs⟩ := hholds
    have hid := h.index_lt (hasNode_of_rule? hr)
    have hsource := h.index_lt (hv.hasNode_source hr hs)
    exact .inl (.inl (.inl (.inr ⟨id.index, source.index, ⟨hid, hsource⟩, rfl⟩)))
  | reached c name rank =>
    obtain ⟨info, hc, hrank, m, hm, -⟩ := hholds
    have hname := h.names c name m (Option.bind_eq_some_iff.2 ⟨info, hc, hm⟩)
    have hle := Nat.lt_succ_of_le (le_trans hrank (h.bases_le hc))
    exact .inl (.inl (.inr ⟨c.index, name, rank, ⟨h.class_lt hc, hname, hle⟩, rfl⟩))
  | opened c =>
    obtain ⟨info, hc, -⟩ := hholds
    exact .inl (.inr ⟨c.index, h.class_lt hc, rfl⟩)
  | linked c a b =>
    obtain ⟨info, hc, hl⟩ := hholds
    obtain ⟨ha, hb⟩ := (hv.classes c info hc).linked _ hl
    exact .inr ⟨c.index, a.index, b.index, ⟨h.class_lt hc, h.index_lt ha, h.index_lt hb⟩, rfl⟩

/-! ### The room that is left -/

open scoped Classical in
/-- What is left to happen along a run from `g₀`: the facts that do not hold yet, each counted for
more than the work list can hold, and the nodes that wait. -/
noncomputable def room (g₀ g : Graph) : Nat :=
  (g₀.factBound.filter fun fact => ¬ fact.Holds g).card * (g₀.nodeBound + 1) + g.worklist.length

theorem Within.worklist_le (hv : g.Valid) : g.worklist.length ≤ g₀.nodeBound := by
  have hnodup : (g.worklist.map NodeId.index).Nodup :=
    hv.nodup.map fun a b hab => NodeId.index_inj hab
  have hsub : ∀ i ∈ g.worklist.map NodeId.index, i ∈ List.range g₀.nodeBound := by
    intro i hi
    obtain ⟨id, hid, rfl⟩ := mem_map.1 hi
    exact mem_range.2 (h.index_lt (hv.worklist id hid))
  have hle := (hnodup.subperm hsub).length_le
  rwa [length_map, length_range] at hle

/-- **A turn uses up room.** -/
theorem Within.room_turn_lt (hv₀ : g₀.Valid) (hv : g.Valid) (hw : g.worklist = id :: rest) :
    room g₀ (g.turn id rest) < room g₀ g := by
  classical
  have hlength : g.worklist.length = rest.length + 1 := by
    rw [hw]
    rfl
  have hnext := h.turn hv₀ hv hw
  rcases turn_progress hv hw with ⟨hs, hrest⟩ | ⟨fact, hnot, hholds⟩
  · have hfacts : ∀ fact : Fact, fact.Holds (g.turn id rest) ↔ fact.Holds g := fun fact =>
      Fact.holds_of_same hs
    simp only [room, hfacts, hrest, hlength]
    exact Nat.lt_succ_self _
  · have hopen : g₀.factBound.filter (fun fact => ¬ fact.Holds (g.turn id rest)) ⊂
        g₀.factBound.filter fun fact => ¬ fact.Holds g := by
      refine ⟨fun f hf => ?_, fun hback => ?_⟩
      · rw [Finset.mem_filter] at hf ⊢
        exact ⟨hf.1, fun hg => hf.2 (hg.mono (turn_extends hv hw))⟩
      · have hfact := hnext.mem_factBound (hv.turn hw) hholds
        have hstill := hback (Finset.mem_filter.2 ⟨hfact, hnot⟩)
        exact (Finset.mem_filter.1 hstill).2 hholds
    have hcard := Finset.card_lt_card hopen
    have hwork := hnext.worklist_le (hv.turn hw)
    unfold room
    calc _ < (g₀.factBound.filter fun fact => ¬ fact.Holds (g.turn id rest)).card *
          (g₀.nodeBound + 1) + (g₀.nodeBound + 1) :=
          Nat.add_lt_add_left (Nat.lt_succ_of_le hwork) _
      _ = ((g₀.factBound.filter fun fact => ¬ fact.Holds (g.turn id rest)).card + 1) *
          (g₀.nodeBound + 1) := (Nat.succ_mul _ _).symm
      _ ≤ (g₀.factBound.filter fun fact => ¬ fact.Holds g).card * (g₀.nodeBound + 1) :=
          Nat.mul_le_mul_right _ hcard
      _ ≤ _ := Nat.le_add_right _ _

/-- With as many turns as there is room, the work list runs empty. -/
theorem Within.drain_worklist {fuel : Nat} (hv₀ : g₀.Valid) (hv : g.Valid)
    (hroom : room g₀ g ≤ fuel) : (drain fuel g).worklist = [] := by
  induction fuel generalizing g with
  | zero =>
    have hzero : g.worklist.length = 0 := by
      unfold room at hroom
      omega
    exact eq_nil_of_length_eq_zero hzero
  | succ fuel ih =>
    unfold drain
    split
    · next hw => exact hw
    · next id rest hw =>
      apply ih (h.turn hv₀ hv hw) (hv.turn hw)
      exact Nat.le_of_lt_succ (lt_of_lt_of_le (h.room_turn_lt hv₀ hv hw) hroom)

end

/-! ### The budget suffices -/

theorem length_names_le (g : Graph) :
    g.names.length ≤ total (fun info => info.members.size + info.bases.length) g.classes.toList +
      g.nodes.size := by
  have hattrs : g.attrs.length ≤ g.nodes.size := by
    rw [← Array.length_toList]
    exact length_filterMap_le _ _
  have hmembers : (g.classes.toList.flatMap fun info => info.members.entries.map (·.1)).length ≤
      total (fun info => info.members.size + info.bases.length) g.classes.toList := by
    rw [length_flatMap_eq_total]
    apply total_le_total
    intro info
    rw [length_map]
    exact Nat.le_add_right _ _
  rw [names, length_append]
  exact add_le_add hmembers hattrs

theorem nodeBound_le (g : Graph) : g.nodeBound ≤ g.weight ^ 2 := by
  have hattrs : g.attrs.length ≤ g.nodes.size := by
    rw [← Array.length_toList]
    exact length_filterMap_le _ _
  have hweight : g.nodes.size ≤ g.weight ∧ 1 + g.classes.size ≤ g.weight := by
    unfold weight
    omega
  calc g.nodeBound = g.nodes.size + g.classes.size * g.attrs.length := rfl
    _ ≤ g.nodes.size + g.classes.size * g.nodes.size :=
        Nat.add_le_add_left (Nat.mul_le_mul_left _ hattrs) _
    _ = g.nodes.size * (1 + g.classes.size) := by ring
    _ ≤ g.weight * g.weight := Nat.mul_le_mul hweight.1 hweight.2
    _ = g.weight ^ 2 := (Nat.pow_two _).symm

theorem card_factBound_le (g : Graph) : g.factBound.card ≤ 5 * g.weight ^ 5 := by
  have hnodes := nodeBound_le g
  have hstock := le_trans (toFinset_card_le g.stock) (length_stock_le g)
  have hnames : g.names.toFinset.card ≤ g.weight := by
    refine le_trans (toFinset_card_le g.names) (le_trans (length_names_le g) ?_)
    unfold weight
    omega
  have hbases : g.baseBound + 1 ≤ g.weight := by
    have hle : g.baseBound ≤
        total (fun info => info.members.size + info.bases.length) g.classes.toList :=
      total_le_total _ fun info => Nat.le_add_left _ _
    unfold weight
    omega
  have hclasses : g.classes.size ≤ g.weight := by
    unfold weight
    omega
  have hone : 2 ≤ g.weight := by
    unfold weight
    omega
  calc g.factBound.card
      ≤ g.nodeBound * g.stock.toFinset.card + g.nodeBound * g.nodeBound +
          g.classes.size * (g.names.toFinset.card * (g.baseBound + 1)) + g.classes.size +
          g.classes.size * (g.nodeBound * g.nodeBound) := by
        unfold factBound
        refine le_trans (Finset.card_union_le _ _) (add_le_add ?_ ?_)
        · refine le_trans (Finset.card_union_le _ _) (add_le_add ?_ ?_)
          · refine le_trans (Finset.card_union_le _ _) (add_le_add ?_ ?_)
            · refine le_trans (Finset.card_union_le _ _) (add_le_add ?_ ?_)
              · refine le_trans Finset.card_image_le ?_
                rw [Finset.card_product, Finset.card_range]
              · refine le_trans Finset.card_image_le ?_
                rw [Finset.card_product, Finset.card_range]
            · refine le_trans Finset.card_image_le ?_
              rw [Finset.card_product, Finset.card_product, Finset.card_range, Finset.card_range]
          · exact le_trans Finset.card_image_le (Finset.card_range _).le
        · refine le_trans Finset.card_image_le ?_
          rw [Finset.card_product, Finset.card_product, Finset.card_range, Finset.card_range]
    _ ≤ g.weight ^ 2 * (2 * g.weight) + g.weight ^ 2 * g.weight ^ 2 +
          g.weight * (g.weight * g.weight) + g.weight + g.weight * (g.weight ^ 2 * g.weight ^ 2) := by
        gcongr
    _ ≤ g.weight ^ 5 + g.weight ^ 5 + g.weight ^ 5 + g.weight ^ 5 + g.weight ^ 5 := by
        have hpow : ∀ k, k ≤ 5 → g.weight ^ k ≤ g.weight ^ 5 := fun k hk =>
          Nat.pow_le_pow_right (by omega) hk
        have h3 : g.weight ^ 2 * (2 * g.weight) ≤ g.weight ^ 5 :=
          calc g.weight ^ 2 * (2 * g.weight) ≤ g.weight ^ 2 * (g.weight * g.weight) := by gcongr
            _ = g.weight ^ 4 := by ring
            _ ≤ g.weight ^ 5 := hpow 4 (by omega)
        have h4 : g.weight ^ 2 * g.weight ^ 2 ≤ g.weight ^ 5 :=
          calc g.weight ^ 2 * g.weight ^ 2 = g.weight ^ 4 := by ring
            _ ≤ g.weight ^ 5 := hpow 4 (by omega)
        have h3' : g.weight * (g.weight * g.weight) ≤ g.weight ^ 5 :=
          calc g.weight * (g.weight * g.weight) = g.weight ^ 3 := by ring
            _ ≤ g.weight ^ 5 := hpow 3 (by omega)
        have h1 : g.weight ≤ g.weight ^ 5 :=
          calc g.weight = g.weight ^ 1 := by ring
            _ ≤ g.weight ^ 5 := hpow 1 (by omega)
        have h5 : g.weight * (g.weight ^ 2 * g.weight ^ 2) = g.weight ^ 5 := by ring
        omega
    _ = 5 * g.weight ^ 5 := by ring

theorem room_le_budget (hv : g.Valid) : room g g ≤ g.budget := by
  classical
  have hnodes := nodeBound_le g
  have hwork := (Within.start g).worklist_le hv
  have hopen : (g.factBound.filter fun fact => ¬ fact.Holds g).card ≤ 5 * g.weight ^ 5 :=
    le_trans (Finset.card_filter_le _ _) (card_factBound_le g)
  have hweight : 11 ≤ g.weight := by
    unfold weight
    omega
  have hsquare : 1 ≤ g.weight ^ 2 := Nat.one_le_pow _ _ (by omega)
  calc room g g
      = (g.factBound.filter fun fact => ¬ fact.Holds g).card * (g.nodeBound + 1) +
          g.worklist.length := by
        unfold room
        congr!
    _ ≤ 5 * g.weight ^ 5 * (g.weight ^ 2 + g.weight ^ 2) + g.weight ^ 2 := by
        gcongr
        omega
    _ ≤ 5 * g.weight ^ 5 * (g.weight ^ 2 + g.weight ^ 2) + g.weight ^ 5 * g.weight ^ 2 := by
        gcongr
        exact Nat.le_mul_of_pos_left _ (Nat.pow_pos (by omega))
    _ = 11 * g.weight ^ 7 := by ring
    _ ≤ g.weight * g.weight ^ 7 := by gcongr
    _ = g.budget := by
        unfold budget
        show g.weight * g.weight ^ 7 = g.weight ^ 8
        ring

/-- **Propagation empties the work list.** -/
theorem propagate_worklist (hv : g.Valid) : g.propagate.worklist = [] :=
  (Within.start g).drain_worklist hv hv (room_le_budget hv)

end Graph

end FlowTyping
