/-
Members that override each other hold the same types.

An own member and the member of the same name in a parent are linked, constructors excepted: each
flows into the other, so in a graph at rest both hold the same types (`overridden_members_agree`).
Links are made at merges and declarations only, so that a class has them all is read off its last
merge (`Arises.linked_of_edge`).  That linked nodes flow into each other is an invariant
(`LinksHold`); it has to be seen for whole operations, since a link is noted before the nodes are
connected.
-/
import FlowTyping.Proofs.Graph.Feeds
import FlowTyping.Proofs.Graph.Inheritance

namespace FlowTyping.Graph

open List

variable {again : Prop} {g g' : Graph} {c p : ClassId} {name : String} {a b : NodeId} {r : Request}
  {history : List Graph} {m : Member}

/-! ### Nodes that flow into each other -/

/-- Two nodes flow into each other as far as they take inputs. -/
def Joined (g : Graph) (a b : NodeId) : Prop := g.Flows a b ∧ g.Flows b a

theorem Flows.later (h : g.Flows a b) (ha : g.HasNode a) (hl : Later g g') : g'.Flows a b := by
  intro inputs' hr'
  obtain ⟨n, hn⟩ := hasNode_iff.1 ha
  have hr : g.rule? a = some n.rule := rule?_eq_some_iff.2 ⟨n, hn, rfl⟩
  obtain ⟨rule', hrule', hext⟩ := hl.rules a _ hr
  rw [hr'] at hrule'
  cases hrule'
  generalize n.rule = rule at hr hext
  cases hext with
  | refl => exact h inputs' hr
  | plain hmore => exact (h _ hr).imp_right (hmore b)

theorem Joined.later (h : g.Joined a b) (ha : g.HasNode a) (hb : g.HasNode b) (hl : Later g g') :
    g'.Joined a b := ⟨h.1.later ha hl, h.2.later hb hl⟩

theorem flows_connect (g : Graph) (a b : NodeId) : (g.connect a b).Flows a b := by
  intro inputs hr
  unfold connect at hr
  split at hr
  · next old hold =>
    split at hr
    · next hknown =>
      rw [hold] at hr
      cases hr
      exact hknown
    · rw [(Same.schedule _ _).rule?, (Same.subscribe _ _ _).rule?, ← setRule, rule?_setRule,
        if_pos rfl, hold] at hr
      cases hr
      exact .inr (mem_append_right _ mem_cons_self)
  · next hother => exact absurd hr (hother inputs)

theorem Valid.hasNode_linked (hv : g.Valid) (h : g.Linked c a b) : g.HasNode a ∧ g.HasNode b := by
  obtain ⟨info, hc, hab⟩ := h
  have hnodes := (hv.classes c info hc).linked _ hab
  unfold ordered at hnodes
  split at hnodes
  · exact hnodes
  · exact hnodes.symm

theorem eq_or_eq_of_ordered_eq {x y : NodeId} (h : ordered x y = ordered a b) :
    (x = a ∧ y = b) ∨ (x = b ∧ y = a) := by
  unfold ordered at h
  split at h <;> split at h <;> cases h
  · exact .inl ⟨rfl, rfl⟩
  · exact .inr ⟨rfl, rfl⟩
  · exact .inr ⟨rfl, rfl⟩
  · exact .inl ⟨rfl, rfl⟩

/-! ### Links hold -/

/-- All nodes that are noted as joined flow into each other. -/
def LinksHold (g : Graph) : Prop := ∀ c a b, g.Linked c a b → g.Joined a b

namespace LinksHold

variable {info : ClassInfo}

variable (h : g.LinksHold)
include h

theorem later (hv : g.Valid) (hl : Later g g')
    (hlinked : ∀ c a b, g'.Linked c a b → g.Linked c a b) : g'.LinksHold := by
  intro c a b hab
  have hold := hlinked c a b hab
  exact (h c a b hold).later (hv.hasNode_linked hold).1 (hv.hasNode_linked hold).2 hl

theorem of_same (hs : Same g g') : g'.LinksHold := by
  intro c a b hab
  rw [Linked, hs.class?] at hab
  rw [Joined, Flows, Flows, hs.rule?]
  exact h c a b hab

theorem setMember {member : Member} (c : ClassId) (name : String) :
    (g.setMember c name member).LinksHold := fun d a b hab => h d a b (linked_setMember.1 hab)

theorem opened (c : ClassId) : (g.opened c).LinksHold := by
  refine fun d a b hab => h d a b ?_
  rw [Linked, Graph.opened, class?_modifyClass] at hab
  split at hab
  · obtain ⟨info, hinfo, hmem⟩ := hab
    obtain ⟨old, hold, rfl⟩ := Option.map_eq_some_iff.1 hinfo
    exact ⟨old, hold, hmem⟩
  · exact hab

theorem link (hv : g.Valid) (ha : g.HasNode a) (hb : g.HasNode b) (c : ClassId) :
    (g.link c a b).LinksHold := by
  rcases link_cases g c a b with ⟨heq, -⟩ | heq
  · rw [heq]
    exact h
  intro d x y hxy
  have hold : g.Linked d x y → (g.link c a b).Joined x y := fun hl => by
    have hmoves : Moves nobody g (g.link c a b) := moves_link ha hb c
    exact (h d x y hl).later (hv.hasNode_linked hl).1 (hv.hasNode_linked hl).2 (.of_extends hmoves.extends)
  have hnew : (g.link c a b).Joined a b := by
    rw [heq]
    have hmoves : Moves nobody ((g.noteLinked c a b).connect a b)
        (((g.noteLinked c a b).connect a b).connect b a) := by
      refine moves_connect ?_ b
      exact (moves_connect (D := nobody) (g := g.noteLinked c a b) hb a).extends.hasNode ha
    refine ⟨(flows_connect _ a b).later ?_ (.of_extends hmoves.extends), flows_connect _ b a⟩
    exact (moves_connect (D := nobody) (g := g.noteLinked c a b) hb a).extends.hasNode ha
  have hclasses : (g.link c a b).classes = (g.noteLinked c a b).classes := by
    rw [heq, classes_connect, classes_connect]
  rw [Linked, (tables_congr hclasses).1, noteLinked, class?_modifyClass] at hxy
  split at hxy
  · obtain ⟨info', hinfo', hmem⟩ := hxy
    obtain ⟨info, hinfo, rfl⟩ := Option.map_eq_some_iff.1 hinfo'
    rcases mem_cons.1 hmem with heq | hmem
    · rcases eq_or_eq_of_ordered_eq heq with ⟨rfl, rfl⟩ | ⟨rfl, rfl⟩
      · exact hnew
      · exact hnew.symm
    · exact hold ⟨info, hinfo, hmem⟩
  · exact hold hxy

theorem takeUp {offer : Offer} (hv : g.Valid) (hoffer : g.Offered info offer) (c : ClassId)
    (changed : Bool) : (takeUp c (g, changed) offer).1.LinksHold :=
  takeUp_induction h (h.setMember c _) fun _ hm _ => h.link hv (hv.hasNode_member hm) hoffer.node c

theorem takeUp_all {offers : List Offer} (hv : g.Valid) (hc : g.class? c = some info)
    (hoffers : ∀ offer ∈ offers, g.Offered info offer) (changed : Bool) :
    (offers.foldl (Graph.takeUp c) (g, changed)).1.LinksHold := by
  induction offers generalizing g changed info with
  | nil => exact h
  | cons offer offers ih =>
    have hfirst := h.takeUp hv (hoffers offer mem_cons_self) c changed
    have hmoves := (moves_takeUp changed hv hc (hoffers offer mem_cons_self)).2.2
    rw [foldl_cons]
    generalize Graph.takeUp c (g, changed) offer = state at hfirst hmoves ⊢
    obtain ⟨k, changed'⟩ := state
    obtain ⟨info', hc', hinfo⟩ := hmoves.extends.classes c info hc
    exact ih hfirst (hmoves.valid hv) hc' (fun o ho =>
      (hoffers o (mem_cons_of_mem _ ho)).extends hmoves.extends hinfo) changed'

theorem mergeBases (hv : g.Valid) (hc : g.class? c = some info) : (g.mergeBases c).1.LinksHold := by
  have hsame := Same.subscribeToParents g c
  have hmoves := moves_subscribeToParents (D := nobody) hv c
  have htaken : (g.taken c).LinksHold := by
    refine (h.of_same hsame).takeUp_all (hmoves.valid hv) ((congrFun hsame.class? c).trans hc) (fun o ho => ?_) false
    exact (mem_offers hv hc ho).extends hmoves.extends (.refl info)
  rw [mergeBases_fst]
  split
  · exact htaken.opened c
  · exact htaken

theorem withOwnMember {node : NodeId} (hv : g.Valid) (hnode : g.HasNode node) (c : ClassId)
    (name : String) : (g.withOwnMember c name node).LinksHold := by
  refine LinksHold.of_same ?_ (.touchClass _ c)
  unfold joinReplaced
  split
  · next member hm =>
    split
    · exact (h.setMember c name).link (hv.setMember hnode c name) hnode (hv.hasNode_member hm) c
    · exact h.setMember c name
  · exact h.setMember c name

theorem change (hs : g.Sound) (hr : r.Given g) : (r.change g).LinksHold := by
  have hlater := (hs.prepared_change hr).later
  intro c a b hab
  have hold : g.Linked c a b → (r.change g).Joined a b := fun hl =>
    (h c a b hl).later (hs.valid.hasNode_linked hl).1 (hs.valid.hasNode_linked hl).2 hlater
  have hrevises := revises_change hs hr c
  obtain ⟨info, hinfo, hmem⟩ := hab
  rw [hinfo] at hrevises
  generalize hc : g.class? c = old at hrevises
  cases hrevises with
  | kept => exact hold ⟨info, hc, hmem⟩
  | made => cases hmem
  | based => exact hold ⟨_, hc, hmem⟩
  | declared name node => exact h.withOwnMember hs.valid hr.2 c name c a b ⟨info, hinfo, hmem⟩

theorem turn {id : NodeId} {rest : List NodeId} (hv : g.Valid) (hw : g.worklist = id :: rest) :
    (g.turn id rest).LinksHold := by
  rcases turn_cases hv hw with ⟨c, hr, -⟩ | hadds
  · obtain ⟨info, hc, -⟩ := (hv.owner id c).1 hr
    have htick : ({ g with worklist := rest } : Graph).tick.Valid :=
      (moves_tick (D := nobody) _).valid (hv.pop hw)
    have hmerge := LinksHold.mergeBases (g := ({ g with worklist := rest } : Graph).tick) h htick hc
    rw [← recompute_of_members (g := { g with worklist := rest }) hr] at hmerge
    exact hmerge.of_same (same_turn g id rest).1
  · exact h.later hv (.of_extends (turn_extends hv hw)) fun c a b => (hadds.linked c a b).1

end LinksHold

theorem Arises.linksHold (h : Arises again history g) : g.LinksHold := by
  refine h.keeps (P := fun _ g => g.LinksHold) (fun u c a b hab => ?_)
    (fun _ g r hs hr _ ih => ih.change hs hr) (fun _ g id rest hv hw ih => ih.turn hv hw)
  obtain ⟨info, hc, -⟩ := hab
  simp [class?, Graph.empty] at hc

/-! ### Overridden members -/

/-- If members are declared before bases are given, an own member is linked with all members that it
overrides. -/
theorem Arises.linked_of_edge {m' : Member} (h : Arises False history g) (hedge : g.Edge c p)
    (hname : name ≠ "__init__") (hm : g.member? c name = some m) (hown : m.origin = .own)
    (hm' : g.member? p name = some m') : m.node = m'.node ∨ g.Linked c m.node m'.node := by
  obtain ⟨node, origin⟩ := m
  cases hown
  obtain ⟨k, k', hmerged, hgrows, hedge', htable, -⟩ := h.merge_of_edge hedge
  rw [htable] at hm'
  -- at the last merge the name was offered, so the table has had an entry since, which is the present one
  obtain ⟨entry, hentry⟩ := hmerged.has_iff.2 (.inr ⟨p, hedge', m', hm'⟩)
  have hkept : some entry = some ⟨node, .own⟩ := by
    rcases hgrows.kept name entry hentry with hkept | ⟨hagain | hnone, -⟩
    · exact hkept.symm.trans hm
    · exact absurd hagain not_false
    · obtain ⟨-, b, hb, -⟩ := hedge
      rw [hgrows.bases, hnone] at hb
      cases hb
  rw [hmerged.table, hkept, foldl_entryAfter_own_iff] at hentry
  by_cases hsame : node = m'.node
  · exact .inl hsame
  · obtain ⟨position, hbase⟩ := exists_baseAt hedge'.mem_parents
    refine .inr (hgrows.linked _ _ ?_)
    exact hmerged.linked _ (mem_offers_of_member? hbase hedge.1 hm') node hentry hsame hname

theorem Flows.feeds (h : g.Flows a b) (ha : g.IsPlain a) : g.Feeds b a := by
  obtain ⟨inputs, hr⟩ := ha
  rcases h inputs hr with rfl | hmem
  · exact .refl
  · exact .plain hr hmem

/-- Two plain nodes that flow into each other hold the same types once the graph is at rest. -/
theorem Joined.types_eq (h : g.Joined a b) (hs : g.Sound) (ha : g.IsPlain a) (hb : g.IsPlain b) :
    g.types a = g.types b := by
  ext t
  exact ⟨(h.2.feeds hb).types hs, (h.1.feeds ha).types hs⟩

instance (g : Graph) (id : NodeId) : Decidable (g.IsPlain id) :=
  match h : g.rule? id with
  | some (.plain inputs) => isTrue ⟨inputs, h⟩
  | none | some (.merge _) | some (.binary ..) | some (.unary ..) | some (.read ..) | some (.write ..) |
    some (.call ..) | some (.iterate _) | some (.subscript ..) | some (.members _) =>
    isFalse fun ⟨_, hr⟩ => by rw [h] at hr; cases hr

def PlainMembers (g : Graph) : Prop :=
  ∀ info ∈ g.classes.toList, ∀ e ∈ info.members.entries, g.IsPlain e.2.node

instance (g : Graph) : Decidable g.PlainMembers :=
  inferInstanceAs (Decidable (∀ info ∈ g.classes.toList, ∀ e ∈ info.members.entries, g.IsPlain e.2.node))

theorem PlainMembers.isPlain (h : g.PlainMembers) (hm : g.member? c name = some m) :
    g.IsPlain m.node := by
  obtain ⟨info, hc, hget⟩ := Option.bind_eq_some_iff.1 hm
  have hmem : info ∈ g.classes.toList := Array.mem_toList_iff.2 (Array.mem_of_getElem? hc)
  exact h info hmem _ (Table.mem_entries_of_get? hget)

/-- **Overridden members agree, and constructors are left alone.**  Let any requests be made, each
with numbers that exist, that give bases to a class at most once and declare its members before
that, and let all members be plain nodes.  An own member holds the types of every member that it
overrides, unless it is the constructor.  And whatever a merge or a declaration connects, in any
graph, is a pair of members of one name that is not that of the constructor. -/
theorem overridden_members_agree (unboundAsNone : Bool) (rs : List Request)
    (hgiven : Request.AllGiven (.empty unboundAsNone) rs)
    (honce : (rs.filterMap Request.basesOf?).Nodup)
    (horder : rs.Pairwise fun r r' => ∀ c ∈ r.basesOf?, r'.declares? ≠ some c)
    (hplain : (Request.runAll (.empty unboundAsNone) rs).PlainMembers) :
    (∀ c p name m m', (Request.runAll (.empty unboundAsNone) rs).Edge c p → name ≠ "__init__" →
      (Request.runAll (.empty unboundAsNone) rs).member? c name = some m → m.origin = .own →
      (Request.runAll (.empty unboundAsNone) rs).member? p name = some m' →
      (Request.runAll (.empty unboundAsNone) rs).types m.node =
        (Request.runAll (.empty unboundAsNone) rs).types m'.node) ∧
    (∀ (g : Graph) c x y, (g.mergeBases c).1.HasInput x y →
      g.HasInput x y ∨ ∃ offer ∈ g.offers c, offer.name ≠ "__init__" ∧
        ∃ node, g.member? c offer.name = some ⟨node, .own⟩ ∧
          ((x = node ∧ y = offer.node) ∨ (x = offer.node ∧ y = node))) ∧
    ∀ (g : Graph) c name node, ∃ k : Graph, g.addOwnMember c name node = k.propagate ∧
      ∀ x y, k.HasInput x y → g.HasInput x y ∨ (name ≠ "__init__" ∧
        ∃ old, g.member? c name = some old ∧ ((x = node ∧ y = old.node) ∨ (x = old.node ∧ y = node))) := by
  have harises : Arises False _ _ := arises_runAll hgiven honce (.inr horder)
  generalize Request.runAll (.empty unboundAsNone) rs = g at harises hplain ⊢
  refine ⟨fun c p name m m' hedge hname hm hown hm' => ?_, fun g c x y => hasInput_mergeBases,
    fun g c name node => ⟨_, addOwnMember_eq g c name node, fun x y => hasInput_withOwnMember⟩⟩
  rcases harises.linked_of_edge hedge hname hm hown hm' with heq | hlinked
  · rw [heq]
  · exact (harises.linksHold c _ _ hlinked).types_eq harises.reachable.sound (hplain.isPlain hm)
      (hplain.isPlain hm')

/-- Two classes that are bases of each other, each with a member and a constructor, which get their
types in the end. -/
def overridingRequests : List Request :=
  [.addClass "A" 1, .addClass "B" 2, .add (.plain []) 3, .addOwnMember ⟨0⟩ "x" ⟨2⟩, .add (.plain []) 4,
    .addOwnMember ⟨0⟩ "__init__" ⟨3⟩, .add (.plain []) 5, .addOwnMember ⟨1⟩ "x" ⟨4⟩, .add (.plain []) 6,
    .addOwnMember ⟨1⟩ "__init__" ⟨5⟩, .setBases ⟨1⟩ [⟨0⟩], .setBases ⟨0⟩ [⟨1⟩],
    .seed ⟨2⟩ (.single (.base .int)), .seed ⟨5⟩ (.single (.base .str))]

theorem overridden_members_agree_overriding :
    (Request.runAll (.empty true) overridingRequests).types ⟨4⟩ =
      (Request.runAll (.empty true) overridingRequests).types ⟨2⟩ ∧
    .base .int ∈ ((Request.runAll (.empty true) overridingRequests).types ⟨4⟩).toList ∧
    .base .str ∈ ((Request.runAll (.empty true) overridingRequests).types ⟨5⟩).toList ∧
    .base .str ∉ ((Request.runAll (.empty true) overridingRequests).types ⟨3⟩).toList := by
  have hagree := (overridden_members_agree true overridingRequests (by decide +kernel) (by decide +kernel)
    (by decide +kernel) (by decide +kernel)).1
  have hparent : .classObject ⟨0⟩ ∈ ((Request.runAll (.empty true) overridingRequests).types ⟨0⟩).toList := by
    decide +kernel
  refine ⟨hagree ⟨1⟩ ⟨0⟩ "x" ⟨⟨4⟩, .own⟩ ⟨⟨2⟩, .own⟩ ⟨by decide, ⟨0⟩, by decide +kernel, hparent⟩ (by decide)
    (by decide +kernel) rfl (by decide +kernel), by decide +kernel, by decide +kernel, by decide +kernel⟩

end FlowTyping.Graph
