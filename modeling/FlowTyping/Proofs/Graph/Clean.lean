/-
Shared constants keep the one type that they stand for.

A constant is a plain node, and whoever asks for its type gets the same node; so a single value that
flowed into it would show up all over the project.  A graph is clean if no constant has inputs or
another type, and if no member, export, parameter or result of a function is a constant.  The second
part keeps the first: nodes get inputs only if tables lead to them (`Clean.connect`), and the turn
of a constant finds nothing.  So turns keep a graph clean, and so does every request that does not
name a constant as a receiver (`Clean.request`).
-/
import FlowTyping.Proofs.Graph.Feeds

namespace FlowTyping.Graph

open List

variable {g g' : Graph} {r : Request} {id : NodeId}

/-- A node that all who ask for its type have in common. -/
def Shared (g : Graph) (id : NodeId) : Prop := ∃ t, (t, id) ∈ g.constants

/-- Constants have no inputs and one type each, and no table leads to one. -/
structure Clean (g : Graph) : Prop where
  constants : ∀ t id, (t, id) ∈ g.constants →
    g.rule? id = some (.plain []) ∧ g.types id = .single t
  members : ∀ c info, g.class? c = some info → ∀ e ∈ info.members.entries, ¬ g.Shared e.2.node
  exported : ∀ m info, g.module? m = some info → ∀ e ∈ info.exports.entries, ¬ g.Shared e.2
  params : ∀ f info, g.function? f = some info → ∀ p ∈ info.params,
    g.HasNode p.node ∧ ¬ g.Shared p.node
  returns : ∀ f info, g.function? f = some info → ¬ g.Shared info.returns

theorem clean_empty (unboundAsNone : Bool) : (Graph.empty unboundAsNone).Clean := by
  have hnone : ∀ {α : Type} {i : Nat} {a : α}, (#[] : Array α)[i]? = some a → False := by
    intro α i a h
    simp at h
  exact ⟨fun _ _ h => absurd h not_mem_nil, fun _ _ h => (hnone h).elim,
    fun _ _ h => (hnone h).elim, fun _ _ h => (hnone h).elim, fun _ _ h => (hnone h).elim⟩

theorem Shared.of_constants (h : g'.Shared id) (hc : g'.constants = g.constants) : g.Shared id := by
  obtain ⟨t, ht⟩ := h
  exact ⟨t, hc ▸ ht⟩

namespace Clean

variable {c : ClassId} {id : NodeId} {member : Member} {offer : Offer}

variable (h : g.Clean)
include h

theorem rule? (hid : g.Shared id) : g.rule? id = some (.plain []) := by
  obtain ⟨t, ht⟩ := hid
  exact (h.constants t id ht).1

theorem hasNode (hid : g.Shared id) : g.HasNode id :=
  hasNode_of_rule? (h.rule? hid)

theorem not_shared_next : ¬ g.Shared g.next := fun hnext =>
  g.not_hasNode_next (h.hasNode hnext)

theorem not_shared_member {name : String} (hm : g.member? c name = some member) :
    ¬ g.Shared member.node := by
  obtain ⟨info, hc, hget⟩ := Option.bind_eq_some_iff.1 hm
  exact h.members c info hc _ (Table.mem_entries_of_get? hget)

/-! ### Single steps -/

/-- A step that leaves the constants alone and puts none of them into a member table. -/
theorem of_steps (hconstants : g'.constants = g.constants)
    (hnodes : ∀ id, g.HasNode id → g'.HasNode id)
    (hkept : ∀ id, g.Shared id → g'.rule? id = g.rule? id ∧ g'.types id = g.types id)
    (hmembers : ∀ c info, g'.class? c = some info → ∀ e ∈ info.members.entries,
      ¬ g.Shared e.2.node) (hfunctions : g'.functions = g.functions)
    (hmodules : g'.modules = g.modules) : g'.Clean := by
  have hnot : ∀ {id : NodeId}, ¬ g.Shared id → ¬ g'.Shared id := fun hid hid' =>
    hid (hid'.of_constants hconstants)
  refine ⟨fun t id ht => ?_, fun c info hc e he => hnot (hmembers c info hc e he),
    fun m info hm e he => ?_, fun f info hf p hp => ?_, fun f info hf => ?_⟩
  · rw [hconstants] at ht
    obtain ⟨hrule, htypes⟩ := hkept id ⟨t, ht⟩
    rw [hrule, htypes]
    exact h.constants t id ht
  · rw [Graph.module?, hmodules] at hm
    exact hnot (h.exported m info hm e he)
  · rw [Graph.function?, hfunctions] at hf
    exact ⟨hnodes _ (h.params f info hf p hp).1, hnot (h.params f info hf p hp).2⟩
  · rw [Graph.function?, hfunctions] at hf
    exact hnot (h.returns f info hf)

theorem of_same (hs : Same g g') : g'.Clean := by
  refine h.of_steps hs.constants (fun id hid => (hs.hasNode id).2 hid) (fun id _ => ?_)
    (fun c info hc => ?_) hs.functions hs.modules
  · rw [hs.rule?, hs.types]
    exact ⟨rfl, rfl⟩
  · rw [hs.class?] at hc
    exact h.members c info hc

theorem putTypes (hid : ¬ g.Shared id) (types : TypeSet) : (g.putTypes id types).Clean := by
  refine h.of_steps rfl (fun b hb => (Extends.putTypes g id types).hasNode hb) (fun b hb => ?_)
    h.members rfl rfl
  have hne : b ≠ id := fun heq => hid (heq ▸ hb)
  rw [rule?_putTypes, types_putTypes_of_ne hne]
  exact ⟨rfl, rfl⟩

theorem setRule (hid : ¬ g.Shared id) (r : Rule) : (g.setRule id r).Clean := by
  refine h.of_steps rfl (fun b hb => ?_) (fun b hb => ?_) h.members rfl rfl
  · exact (hasNode_modifyNode g id _ b).2 hb
  · have hne : id ≠ b := fun heq => hid (heq ▸ hb)
    rw [rule?_setRule, if_neg hne, types_setRule]
    exact ⟨rfl, rfl⟩

theorem push (rule : Rule) (line : Nat) : (g.push rule line).2.Clean := by
  have hext := Extends.push g rule line
  refine h.of_steps hext.constants (fun b hb => hext.hasNode hb) (fun b hb => ?_)
    (fun c info hc => ?_) hext.functions hext.modules
  · have hne : b ≠ g.next := fun heq => h.not_shared_next (heq ▸ hb)
    rw [rule?_push, if_neg hne, types_push]
    exact ⟨rfl, rfl⟩
  · rw [Graph.class?, classes_push] at hc
    exact h.members c info hc

theorem modifyClass {f : ClassInfo → ClassInfo}
    (hf : ∀ info : ClassInfo, ∀ e ∈ (f info).members.entries,
      e ∈ info.members.entries ∨ ¬ g.Shared e.2.node) : (g.modifyClass c f).Clean := by
  refine h.of_steps rfl (fun _ hb => hb) (fun _ _ => ⟨rfl, rfl⟩) (fun d info hd e he => ?_) rfl rfl
  rw [class?_modifyClass] at hd
  split at hd
  · obtain ⟨old, hold, rfl⟩ := Option.map_eq_some_iff.1 hd
    rcases hf old e he with he | he
    · exact h.members d old hold e he
    · exact he
  · exact h.members d info hd e he

theorem setMember (hm : ¬ g.Shared member.node) (c : ClassId) (name : String) :
    (g.setMember c name member).Clean := by
  apply h.modifyClass
  intro info e he
  rcases Table.mem_entries_insert he with he | rfl
  · exact .inl he
  · exact .inr hm

theorem connect (hid : ¬ g.Shared id) (input : NodeId) : (g.connect id input).Clean := by
  rcases connect_cases g id input with heq | ⟨inputs, -, -, -, heq⟩
  · rw [heq]
    exact h
  · rw [heq]
    exact ((h.setRule hid _).of_same (.subscribe _ _ _)).of_same (.schedule _ _)

theorem link {a b : NodeId} (ha : ¬ g.Shared a) (hb : ¬ g.Shared b) (c : ClassId) :
    (g.link c a b).Clean := by
  unfold Graph.link
  split
  · exact h
  · split
    · exact h
    · have hnote : (g.modifyClass c fun info =>
          { info with linked := ordered a b :: info.linked }).Clean :=
        h.modifyClass fun _ _ he => .inl he
      refine (hnote.connect ha b).connect (fun hb' => hb ?_) a
      exact hb'.of_constants (aside_constants.connect _ a b)

/-! ### Writing to members -/

theorem ensureMember (c : ClassId) (name : String) (line : Nat) :
    (g.ensureMember c name line).2.Clean ∧
      ¬ (g.ensureMember c name line).2.Shared (g.ensureMember c name line).1 := by
  unfold Graph.ensureMember
  split
  · next member hm => exact ⟨h, h.not_shared_member hm⟩
  · have hconstants : (g.push (.plain []) line).2.constants = g.constants :=
      aside_constants.push g _ line
    have hnext : ¬ (g.push (.plain []) line).2.Shared g.next := fun hnext =>
      h.not_shared_next (hnext.of_constants hconstants)
    have hset : ((g.push (.plain []) line).2.setMember c name ⟨g.next, .own⟩).Clean :=
      (h.push _ line).setMember hnext c name
    refine ⟨hset.of_same (.touchClass _ c), fun hnext' => hnext ?_⟩
    exact hnext'.of_constants (Same.touchClass _ c).constants

theorem writeTo (attr : String) (value : NodeId) (line : Nat) (t : Ty) :
    (Graph.writeTo attr value line g t).Clean := by
  cases t with
  | instanceOf c | classObject c =>
    obtain ⟨hclean, hnode⟩ := h.ensureMember c attr line
    exact hclean.connect hnode value
  | moduleObject m =>
    simp only [Graph.writeTo]
    split
    · next node hnode =>
      obtain ⟨info, hm, hget⟩ := Option.bind_eq_some_iff.1 hnode
      exact h.connect (h.exported m info hm _ (Table.mem_entries_of_get? hget)) value
    · exact h
  | _ => exact h

theorem write (object : NodeId) (attr : String) (value : NodeId) (line : Nat) :
    (g.write object attr value line).Clean := by
  unfold Graph.write
  generalize (g.types object).toList = types
  induction types generalizing g with
  | nil => exact h
  | cons t types ih => exact ih (h.writeTo attr value line t)

/-! ### Inheritance -/

theorem not_shared_offer (ho : offer ∈ g.offers c) : ¬ g.Shared offer.node := by
  obtain ⟨parent, info, -, -, hparent, m, he, hnode⟩ := mem_offers_iff.1 ho
  exact hnode ▸ h.members parent info hparent _ he

theorem takeUp (ho : ¬ g.Shared offer.node) (c : ClassId) (changed : Bool) :
    (Graph.takeUp c (g, changed) offer).1.Clean :=
  takeUp_induction h (h.setMember ho c offer.name) fun _ hm _ => h.link (h.not_shared_member hm) ho c

theorem takeUp_all {offers : List Offer} (ho : ∀ o ∈ offers, ¬ g.Shared o.node) (c : ClassId)
    (changed : Bool) : (offers.foldl (Graph.takeUp c) (g, changed)).1.Clean := by
  induction offers generalizing g changed with
  | nil => exact h
  | cons offer offers ih =>
    have hfirst := h.takeUp (ho offer mem_cons_self) c changed
    have hconstants := aside_constants.takeUp c (g, changed) offer
    rw [foldl_cons]
    generalize Graph.takeUp c (g, changed) offer = state at hfirst hconstants ⊢
    refine ih hfirst (fun o ho' hshared => ?_) state.2
    exact ho o (mem_cons_of_mem _ ho') (hshared.of_constants hconstants)

theorem mergeBases (c : ClassId) : (g.mergeBases c).1.Clean := by
  have hsame := Same.subscribeToParents g c
  have hoffers : ∀ o ∈ g.offers c, ¬ (g.subscribeToParents c).Shared o.node := fun o ho hshared =>
    h.not_shared_offer ho (hshared.of_constants hsame.constants)
  have htaken := (h.of_same hsame).takeUp_all hoffers c false
  unfold Graph.mergeBases
  simp only
  split
  · exact htaken.modifyClass fun _ _ he => .inl he
  · exact htaken

/-! ### Turns -/

/-- The turn of a constant finds nothing, and no other node is a constant. -/
theorem grow {types : TypeSet} (hid : g.Shared id → types = .empty) :
    (g.grow id types).1.Clean := by
  unfold Graph.grow
  split
  · exact h
  · next hnew =>
    have hnot : ¬ g.Shared id := fun hshared => by
      rw [hid hshared] at hnew
      exact hnew rfl
    exact (h.putTypes hnot types).of_same .counts

theorem recompute (id : NodeId) : (g.recompute id).1.Clean := by
  have htick : g.tick.Clean := h.of_same .counts
  rcases hr : g.rule? id with - | r
  · rw [recompute_of_none hr]
    exact htick
  · by_cases hfinds : r.Finds
    · rw [recompute_of_finds hr hfinds]
      rcases hf : g.tick.find? r with - | f
      · exact htick
      · have hsame : Same g.tick (f.watched.foldl (fun g source => g.subscribe id source) g.tick) :=
          Same.foldl (fun g w => Same.subscribe g id w) _ _
        refine (htick.of_same hsame).grow fun hshared => ?_
        have hplain := h.rule? (hshared.of_constants hsame.constants)
        rw [hr] at hplain
        cases hplain
        cases hf
        rfl
    · cases r with
      | write object attr value =>
        rw [recompute_of_write hr]
        exact htick.write object attr value _
      | members c =>
        rw [recompute_of_members hr]
        exact htick.mergeBases c
      | _ => exact absurd trivial hfinds

theorem turn (id : NodeId) (rest : List NodeId) : (g.turn id rest).Clean := by
  have hpop : ({ g with worklist := rest } : Graph).Clean := h.of_same .counts
  exact (hpop.recompute id).of_same (same_turn g id rest).1

theorem propagate : g.propagate.Clean :=
  drain_induction (P := Clean) (fun _ id rest _ hk => hk.turn id rest) g.budget h

/-! ### Requests -/

theorem withConstant (hv : g.Valid) (t : Ty) : (g.withConstant t).Clean := by
  have hext := Extends.push g (.plain []) 0
  -- a node that exists does not become a constant
  have hnot : ∀ {b : NodeId}, g.HasNode b → ¬ g.Shared b → ¬ (g.withConstant t).Shared b := by
    rintro b hb hunshared ⟨u, hu⟩
    rw [constants_withConstant] at hu
    rcases mem_cons.1 hu with heq | hu
    · cases heq
      exact g.not_hasNode_next hb
    · exact hunshared ⟨u, hu⟩
  refine ⟨fun u id hu => ?_, fun c info hc e he => ?_, fun m info hm e he => ?_,
    fun f info hf p hp => ?_, fun f info hf => ?_⟩
  · rw [constants_withConstant] at hu
    rw [rule?_withConstant]
    rcases mem_cons.1 hu with heq | hu
    · cases heq
      exact ⟨if_pos rfl, types_withConstant_next g t⟩
    · have hne : id ≠ g.next := fun heq => g.not_hasNode_next (heq ▸ hv.constants _ hu)
      rw [if_neg hne, types_withConstant_of_ne hne]
      exact h.constants u id hu
  · rw [(tables_congr (classes_withConstant g t)).1] at hc
    exact hnot ((hv.classes c info hc).members e he) (h.members c info hc e he)
  · have hm' : g.module? m = some info := by
      rw [Graph.module?, ← hext.modules]
      exact hm
    exact hnot ((hv.modules m info hm').exported e he) (h.exported m info hm' e he)
  · have hf' : g.function? f = some info := by
      rw [Graph.function?, ← hext.functions]
      exact hf
    obtain ⟨hnode, hunshared⟩ := h.params f info hf' p hp
    exact ⟨(Later.withConstant g t).hasNode hnode, hnot hnode hunshared⟩
  · have hf' : g.function? f = some info := by
      rw [Graph.function?, ← hext.functions]
      exact hf
    exact hnot (hv.functions f info hf') (h.returns f info hf')

theorem constant (hv : g.Valid) (t : Ty) : (g.constant t).2.Clean := by
  rcases constant_cases g t with ⟨id, -, heq⟩ | heq
  · rw [heq]
    exact h
  · rw [heq]
    exact h.withConstant hv t

theorem addIncoming (id : NodeId) (value : Incoming) : (Graph.addIncoming id g value).Clean := by
  unfold Graph.addIncoming
  split
  · next incoming hr =>
    have hid : ¬ g.Shared id := fun hshared => by
      rw [h.rule? hshared] at hr
      cases hr
    split
    · exact h
    · have hset := h.setRule hid (.merge (incoming ++ [value]))
      cases value with
      | value source => exact hset.of_same (.subscribe _ id source)
      | unbound => exact hset
  · exact h

theorem withClass (name : String) (line : Nat) : (g.withClass name line).Clean := by
  have hpush := h.push (.members ⟨g.classes.size⟩) line
  have hconstants := aside_constants.push g (.members ⟨g.classes.size⟩) line
  have hnext : ¬ (g.push (.members ⟨g.classes.size⟩) line).2.Shared g.next := fun hnext =>
    h.not_shared_next (hnext.of_constants hconstants)
  have hput := hpush.putTypes hnext (.single (.classObject ⟨g.classes.size⟩))
  refine hput.of_steps rfl (fun _ hb => hb) (fun _ _ => ⟨rfl, rfl⟩) (fun c info hc e he => ?_) rfl rfl
  rw [class?_withClass] at hc
  split at hc
  · cases hc
    cases he
  · exact fun hshared => h.members c info hc e he (hshared.of_constants hconstants)

theorem withBases (c : ClassId) (node : NodeId) (bases : List NodeId) :
    (g.withBases c node bases).Clean := by
  have hsame : Same g (bases.foldl (fun g base => g.subscribe node base) g) :=
    Same.foldl (fun g b => Same.subscribe g node b) _ _
  have hbases := (h.of_same hsame).modifyClass (c := c) (f := fun info => { info with bases })
    fun _ _ he => .inl he
  exact hbases.of_same (.schedule _ node)

theorem withOwnMember {node : NodeId} (hnode : ¬ g.Shared node) (c : ClassId) (name : String) :
    (g.withOwnMember c name node).Clean := by
  have hset : (g.setMember c name ⟨node, .own⟩).Clean := h.setMember hnode c name
  have hjoined : ((g.setMember c name ⟨node, .own⟩).joinReplaced c name node
      (g.member? c name)).Clean := by
    unfold Graph.joinReplaced
    split
    · next member hm =>
      split
      · exact hset.link hnode (h.not_shared_member hm) c
      · exact hset
    · exact hset
  exact hjoined.of_same (.touchClass _ c)

theorem addFunction {info : FunctionInfo}
    (hparams : ∀ p ∈ info.params, g.HasNode p.node ∧ ¬ g.Shared p.node)
    (hreturns : ¬ g.Shared info.returns) : (g.addFunction info).2.Clean := by
  have hfunction : ∀ f : FunctionId, (g.addFunction info).2.function? f =
      if f.index = g.functions.size then some info else g.function? f := fun f =>
    Array.getElem?_push
  refine { h with params := fun f info' hf => ?_, returns := fun f info' hf => ?_ }
  · rw [hfunction] at hf
    split at hf
    · cases hf
      exact hparams
    · exact h.params f info' hf
  · rw [hfunction] at hf
    split at hf
    · cases hf
      exact hreturns
    · exact h.returns f info' hf

/-- A change of the modules that puts no constant among the exports. -/
theorem withModules {modules : Array ModuleInfo}
    (hmodules : ∀ (m : ModuleId) info, modules[m.index]? = some info →
      ∀ e ∈ info.exports.entries, ¬ g.Shared e.2) : ({ g with modules } : Graph).Clean :=
  { h with exported := hmodules }

theorem modifyModule {m : ModuleId} {f : ModuleInfo → ModuleInfo}
    (hf : ∀ info : ModuleInfo, ∀ e ∈ (f info).exports.entries,
      e ∈ info.exports.entries ∨ ¬ g.Shared e.2) : (g.modifyModule m f).Clean := by
  refine h.withModules fun n info hn e he => ?_
  rw [Array.getElem?_modify] at hn
  split at hn
  · obtain ⟨old, hold, rfl⟩ := Option.map_eq_some_iff.1 hn
    rcases hf old e he with he | he
    · exact h.exported n old hold e he
    · exact he
  · exact h.exported n info hn e he

end Clean

/-- Whether a request names no constant as a node that something is to be put into, or as one that a
table is to lead to. -/
def Request.Spares (g : Graph) : Request → Prop
  | addInput id _ | seed id _ => ¬ g.Shared id
  | addOwnMember _ _ node | setExport _ _ node => ¬ g.Shared node
  | addFunction info => (∀ p ∈ info.params, ¬ g.Shared p.node) ∧ ¬ g.Shared info.returns
  | _ => True

theorem Clean.change (h : g.Clean) (hs : g.Sound) (hr : r.Given g) (hspares : r.Spares g) :
    (r.change g).Clean := by
  cases r with
  | add rule line => exact h.push rule line
  | constant t => exact h.constant hs.valid t
  | addToMerge id values =>
    simp only [Request.change]
    split
    · have hall : ∀ (values : List Incoming) (k : Graph), k.Clean →
          (values.foldl (Graph.addIncoming id) k).Clean := by
        intro values
        induction values with
        | nil => exact fun _ hk => hk
        | cons value values ih => exact fun k hk => ih _ (hk.addIncoming id value)
      exact (hall values g h).of_same (.schedule _ id)
    · exact h
  | addInput id input => exact h.connect hspares input
  | seed id types =>
    simp only [Request.change, withTypes]
    split
    · exact h
    · exact (h.putTypes hspares types).of_same (.touch _ id)
  | addClass name line => exact h.withClass name line
  | setBases c bases =>
    obtain ⟨info, hc⟩ := class?_of_lt hr.1
    simp only [Request.change, hc]
    exact h.withBases c info.node bases
  | addOwnMember c name node => exact h.withOwnMember hspares c name
  | addFunction info =>
    exact h.addFunction (fun p hp => ⟨hr.2 p hp, hspares.1 p hp⟩) hspares.2
  | addModule name =>
    refine h.withModules fun m info hm => ?_
    rw [Array.getElem?_push] at hm
    split at hm
    · cases hm
      exact fun _ he => absurd he not_mem_nil
    · exact h.exported m info hm
  | setExport m name node =>
    refine h.modifyModule fun info e he => ?_
    rcases Table.mem_entries_insert he with he | rfl
    · exact .inl he
    · exact .inr hspares
  | addSubmodule parent name child => exact h.modifyModule fun _ _ he => .inl he
  | repropagate => exact h.of_same (.allScheduled g)

/-- **Requests that spare the constants keep a graph clean.** -/
theorem Clean.request (h : g.Clean) (hs : g.Sound) (hr : r.Given g) (hspares : r.Spares g) :
    (r.run g).Clean := by
  have hchange := h.change hs hr hspares
  rw [Request.run_eq]
  split
  · exact hchange.propagate
  · exact hchange

/-- No request makes a constant of a node that exists. -/
theorem Shared.of_request (hid : g.HasNode id)
    (h : (r.run g).Shared id) : g.Shared id := by
  by_cases hconstant : ∃ t, r = .constant t
  · obtain ⟨t, rfl⟩ := hconstant
    change (g.constant t).2.Shared id at h
    rcases constant_cases g t with ⟨node, -, heq⟩ | heq
    · rw [heq] at h
      exact h
    · rw [heq] at h
      obtain ⟨u, hu⟩ := h
      rw [constants_withConstant] at hu
      rcases mem_cons.1 hu with heq' | hu
      · cases heq'
        exact absurd hid g.not_hasNode_next
      · exact ⟨u, hu⟩
  · exact h.of_constants (constants_run g fun t ht => hconstant ⟨t, ht⟩)

end FlowTyping.Graph
