/-
Member tables are closed under inheritance, and have nothing else.

There is an edge from a class to every other class in the set of one of its bases.  The names in the
table of a class are those that a class along the edges declares, and a class is open exactly if one
along the edges has a base that nothing is known about (`inheritance_closure`).  That a class has
all that its parents have is read off its last merge (`Arises.has_of_edge`); that it has nothing
else is an invariant of its own (`Grounded`).
-/
import FlowTyping.Proofs.Graph.History

namespace FlowTyping

open List Option

/-- A type that says nothing about the members of a class with this base. -/
def Ty.IsOpenBase : Ty → Prop
  | .any | .builtinType _ => True
  | .builtinClass name => name ≠ "object"
  | _ => False

namespace Graph

variable {again : Prop} {g g' : Graph} {c p : ClassId} {name : String} {r : Request}
  {history : List Graph} {rest : List NodeId}

/-! ### Edges -/

/-- A class has another one in the set of one of its bases. -/
def Edge (g : Graph) (c p : ClassId) : Prop := p ≠ c ∧ ∃ b ∈ g.bases c, .classObject p ∈ g.types b

/-- Zero or more edges lead from a class to another one. -/
abbrev Inherits (g : Graph) : ClassId → ClassId → Prop := Relation.ReflTransGen g.Edge

def Has (g : Graph) (c : ClassId) (name : String) : Prop := ∃ m, g.member? c name = some m

def Declares (g : Graph) (c : ClassId) (name : String) : Prop :=
  ∃ node, g.member? c name = some ⟨node, .own⟩

/-- Some base of the class says nothing about its members. -/
def OpenBased (g : Graph) (c : ClassId) : Prop := ∃ b ∈ g.bases c, ∃ t ∈ g.types b, t.IsOpenBase

theorem Edge.mem_parents (h : g.Edge c p) : p ∈ g.parents c := Graph.mem_parents.2 h.2

theorem Edge.class? (h : g.Edge c p) : ∃ info, g.class? c = some info := by
  obtain ⟨-, b, hb, -⟩ := h
  rcases hc : g.class? c with - | info
  · rw [bases, hc] at hb
    exact absurd hb not_mem_nil
  · exact ⟨info, rfl⟩

theorem leavesOpen_iff {t : Ty} :
    g.leavesOpen c t = true ↔ t.IsOpenBase ∨ ∃ p, t = .classObject p ∧ p ≠ c ∧ g.anyBased p = true := by
  cases t with
  | _ => simp [leavesOpen, Ty.IsOpenBase]

/-- The bases of a class leave open what it has if one of them says nothing, or is open itself. -/
theorem opens_iff : g.opens c = true ↔ g.OpenBased c ∨ ∃ p, g.Edge c p ∧ g.anyBased p = true := by
  simp only [opens, List.any_eq_true, leavesOpen_iff]
  constructor
  · rintro ⟨b, hb, t, ht, hopen | ⟨p, rfl, hne, hany⟩⟩
    · exact .inl ⟨b, hb, t, ht, hopen⟩
    · exact .inr ⟨p, ⟨hne, b, hb, ht⟩, hany⟩
  · rintro (⟨b, hb, t, ht, hopen⟩ | ⟨p, ⟨hne, b, hb, ht⟩, hany⟩)
    · exact ⟨b, hb, t, ht, .inl hopen⟩
    · exact ⟨b, hb, _, ht, .inr ⟨p, rfl, hne, hany⟩⟩

/-- A name is in the table after a merge if it was there before or some parent has it. -/
theorem Merged.has_iff (h : Merged c g g') :
    g'.Has c name ↔ g.Has c name ∨ ∃ p, g.Edge c p ∧ g.Has p name := by
  rw [Has, h.table, ← isSome_iff_exists, isSome_foldl_entryAfter, isSome_iff_exists]
  refine or_congr_right ⟨?_, ?_⟩
  · rintro ⟨offer, ho⟩
    obtain ⟨hmem, hname⟩ := mem_filter.1 ho
    obtain ⟨p, hbase, hne, hm⟩ := exists_member?_of_mem_offers hmem
    rw [of_decide_eq_true hname] at hm
    exact ⟨p, ⟨hne, Graph.mem_parents.1 hbase.mem_parents⟩, hm⟩
  · rintro ⟨p, hedge, m, hm⟩
    obtain ⟨position, hbase⟩ := exists_baseAt hedge.mem_parents
    exact ⟨_, mem_filter.2 ⟨mem_offers_of_member? hbase hedge.1 hm, decide_eq_true rfl⟩⟩

theorem Merged.anyBased_iff (h : Merged c g g') :
    g'.anyBased c = true ↔ g.anyBased c = true ∨ g.OpenBased c ∨ ∃ p, g.Edge c p ∧ g.anyBased p = true := by
  rw [h.anyBased, Bool.or_eq_true, opens_iff]

/-! ### A class has what its parents have -/

/-- A class sees the same edges as at its last merge. -/
theorem InTouch.edge_iff {node : NodeId} {m : Graph}
    (h : InTouch again c node rest m g) (hmerged : Merged c m (m.turn node rest)) :
    g.Edge c p ↔ m.Edge c p := by
  refine and_congr_right fun _ => ?_
  rw [h.bases hmerged]
  exact exists_congr fun b => and_congr_right fun hb => by rw [h.sets b hb]

theorem Grows.has (h : Grows again c g g') (hname : g.Has c name) : g'.Has c name := by
  obtain ⟨m, hm⟩ := hname
  rcases h.kept name m hm with hkept | ⟨-, node, hown⟩
  · exact ⟨m, hkept⟩
  · exact ⟨_, hown⟩

namespace Arises

variable (h : Arises again history g)
include h

/-- A base of a class was one at the last merge of the class, with the table that it has now. -/
theorem merge_of_edge (hedge : g.Edge c p) : ∃ m k, Merged c m k ∧ Grows again c k g ∧ m.Edge c p ∧
      g.member? p = m.member? p ∧ g.anyBased p = m.anyBased p := by
  obtain ⟨info, hc⟩ := hedge.class?
  obtain ⟨-, m, -, rest, -, hv, hw, hr, -, htouch⟩ := h.lastMerge hc
  have hmerged := merged_turn hv hw hr
  have hedge' := (htouch.edge_iff hmerged).1 hedge
  exact ⟨m, _, hmerged, htouch.grows, hedge', htouch.tables p hedge'.mem_parents hedge.1⟩

theorem has_of_edge (hedge : g.Edge c p) (hp : g.Has p name) : g.Has c name := by
  obtain ⟨m, k, hmerged, hgrows, hedge', htable, -⟩ := h.merge_of_edge hedge
  refine hgrows.has (hmerged.has_iff.2 (.inr ⟨p, hedge', ?_⟩))
  rw [Has, ← htable]
  exact hp

theorem open_of_edge (hedge : g.Edge c p) (hp : g.anyBased p = true) : g.anyBased c = true := by
  obtain ⟨m, k, hmerged, hgrows, hedge', -, hopen⟩ := h.merge_of_edge hedge
  rw [hgrows.anyBased, hmerged.anyBased_iff]
  exact .inr (.inr ⟨p, hedge', hopen ▸ hp⟩)

theorem open_of_openBased (hopen : g.OpenBased c) : g.anyBased c = true := by
  obtain ⟨b, hb, t, ht, hopen⟩ := hopen
  rcases hc : g.class? c with - | info
  · rw [bases, hc] at hb
    exact absurd hb not_mem_nil
  obtain ⟨-, m, -, rest, -, hv, hw, hr, -, htouch⟩ := h.lastMerge hc
  have hmerged := merged_turn hv hw hr
  rw [htouch.grows.anyBased, hmerged.anyBased_iff]
  rw [htouch.bases hmerged] at hb
  rw [htouch.sets b hb] at ht
  exact .inr (.inl ⟨b, hb, t, ht, hopen⟩)

end Arises

/-! ### A class has nothing else -/

/-- Nothing that a member goes back to is lost. -/
structure Carries (g g' : Graph) : Prop where
  edge : ∀ c p, g.Edge c p → g'.Edge c p
  declares : ∀ c name, g.Declares c name → g'.Declares c name
  openBased : ∀ c, g.OpenBased c → g'.OpenBased c

theorem Later.carries (h : Later g g') (hbases : ∀ c, g.bases c = g'.bases c ∨ g.bases c = []) :
    Carries g g' := by
  have hmem : ∀ c, ∀ b ∈ g.bases c, b ∈ g'.bases c := by
    intro c b hb
    rcases hbases c with hsame | hnone
    · exact hsame ▸ hb
    · rw [hnone] at hb
      exact absurd hb not_mem_nil
  refine ⟨?_, ?_, ?_⟩
  · rintro c p ⟨hne, b, hb, ht⟩
    exact ⟨hne, b, hmem c b hb, h.types b _ ht⟩
  · rintro c name ⟨node, hm⟩
    obtain ⟨info, hc, hget⟩ := bind_eq_some_iff.1 hm
    obtain ⟨info', hc', hkept⟩ := h.classes c info hc
    obtain ⟨⟨node', origin⟩, hget', hown⟩ := hkept.members name _ hget
    cases hown rfl
    exact ⟨node', bind_eq_some_iff.2 ⟨info', hc', hget'⟩⟩
  · rintro c ⟨b, hb, t, ht, hopen⟩
    exact ⟨b, hmem c b hb, t, h.types b t ht, hopen⟩

theorem Carries.inherits (h : Carries g g') {d : ClassId} (hcd : g.Inherits c d) : g'.Inherits c d :=
  Relation.ReflTransGen.mono h.edge _ _ hcd

/-- Every name in a table goes back to a declaration, and every open class to a base that says
nothing. -/
structure Grounded (g : Graph) : Prop where
  names : ∀ c name, g.Has c name → ∃ d, g.Inherits c d ∧ g.Declares d name
  opened : ∀ c, g.anyBased c = true → ∃ d, g.Inherits c d ∧ g.OpenBased d

/-- Only what is new has to be looked at. -/
theorem Grounded.carried (h : g.Grounded) (hcarries : Carries g g')
    (hnames : ∀ c name, g'.Has c name → (∃ p, g.Inherits c p ∧ g.Has p name) ∨ g'.Declares c name)
    (hopened : ∀ c, g'.anyBased c = true → ∃ p, g.Inherits c p ∧ (g.anyBased p = true ∨ g.OpenBased p)) :
    g'.Grounded := by
  refine ⟨fun c name hname => ?_, fun c hopen => ?_⟩
  · rcases hnames c name hname with ⟨p, hcp, hp⟩ | hdeclares
    · obtain ⟨d, hpd, hd⟩ := h.names p name hp
      exact ⟨d, hcarries.inherits (hcp.trans hpd), hcarries.declares d name hd⟩
    · exact ⟨c, .refl, hdeclares⟩
  · obtain ⟨p, hcp, hp | hp⟩ := hopened c hopen
    · obtain ⟨d, hpd, hd⟩ := h.opened p hp
      exact ⟨d, hcarries.inherits (hcp.trans hpd), hcarries.openBased d hd⟩
    · exact ⟨p, hcarries.inherits hcp, hcarries.openBased p hp⟩

theorem Grounded.change (h : g.Grounded) (hs : g.Sound) (hr : r.Given g) (hfits : r.Fits again g) :
    (r.change g).Grounded := by
  have hcarries : Carries g (r.change g) := by
    refine (hs.prepared_change hr).later.carries fun c => ?_
    by_cases hb : r.basesOf? = some c
    · exact .inr (hfits.bases c hb)
    · exact .inl (bases_change hs hr hb).symm
  have hrevised : ∀ c, (∀ name, (r.change g).Has c name → g.Has c name ∨ (r.change g).Declares c name) ∧
      ((r.change g).anyBased c = true → g.anyBased c = true) := by
    intro c
    have hrevises := revises_change hs hr c
    simp only [Has, Declares, member?, anyBased]
    generalize g.class? c = old at hrevises ⊢
    generalize (r.change g).class? c = new at hrevises ⊢
    cases hrevises with
    | kept | based => exact ⟨fun _ => .inl, fun hopen => hopen⟩
    | made =>
      refine ⟨?_, fun hopen => absurd hopen Bool.false_ne_true⟩
      rintro name ⟨m, hm⟩
      cases hm
    | declared n node hkeeps htable =>
      refine ⟨fun name hname => ?_, hkeeps.anyBased.symm.trans⟩
      have hentry := htable name
      split at hentry
      · exact .inr ⟨node, hentry⟩
      · exact .inl (hname.imp fun _ hm => hentry.symm.trans hm)
  exact h.carried hcarries (fun c name hname => ((hrevised c).1 name hname).imp_left fun hhas => ⟨c, .refl, hhas⟩)
    fun c hopen => ⟨c, .refl, .inl ((hrevised c).2 hopen)⟩

theorem Grounded.turn {id : NodeId} (h : g.Grounded) (hv : g.Valid)
    (hw : g.worklist = id :: rest) : (g.turn id rest).Grounded := by
  have hlater : Later g (g.turn id rest) := .of_extends (turn_extends hv hw)
  rcases turn_cases hv hw with ⟨c, -, hmerged⟩ | hadds
  · refine h.carried (hlater.carries fun d => .inl (congrFun hmerged.bases d).symm)
      (fun d name hname => ?_) fun d hopen => ?_
    · left
      by_cases hd : c = d
      · subst hd
        rcases hmerged.has_iff.1 hname with hold | ⟨p, hedge, hp⟩
        · exact ⟨c, .refl, hold⟩
        · exact ⟨p, .single hedge, hp⟩
      · rw [Has, member?, hmerged.others d hd] at hname
        exact ⟨d, .refl, hname⟩
    · by_cases hd : c = d
      · subst hd
        rcases hmerged.anyBased_iff.1 hopen with hold | hbase | ⟨p, hedge, hp⟩
        · exact ⟨c, .refl, .inl hold⟩
        · exact ⟨c, .refl, .inr hbase⟩
        · exact ⟨p, .single hedge, .inl hp⟩
      · rw [anyBased, hmerged.others d hd] at hopen
        exact ⟨d, .refl, .inl hopen⟩
  · refine h.carried (hlater.carries fun d => .inl (congrFun hadds.bases d).symm)
      (fun d name hname => ?_) fun d hopen => ⟨d, .refl, .inl (congrFun hadds.anyBased d ▸ hopen)⟩
    rcases hadds.entries d name with hsame | ⟨-, hown⟩
    · rw [Has, hsame] at hname
      exact .inl ⟨d, .refl, hname⟩
    · exact .inr hown

theorem Arises.grounded (h : Arises again history g) : g.Grounded := by
  refine h.keeps (P := fun _ g => g.Grounded) (fun u => ⟨fun c name hname => ?_, fun c hopen => ?_⟩)
    (fun _ g r hs hr hfits ih => ih.change hs hr hfits) (fun _ g id rest hv hw ih => ih.turn hv hw)
  · obtain ⟨m, hm⟩ := hname
    simp [member?, class?, Graph.empty] at hm
  · simp [anyBased, class?, Graph.empty] at hopen

/-- **Inheritance closure.**  Let any requests be made, each with numbers that exist, that give
bases to a class at most once.  A name is in the table of a class exactly if some class along the
edges declares it, and a class is open exactly if some class along the edges has a base that says
nothing about members. -/
theorem inheritance_closure (unboundAsNone : Bool) (rs : List Request)
    (hgiven : Request.AllGiven (.empty unboundAsNone) rs)
    (honce : (rs.filterMap Request.basesOf?).Nodup) (c : ClassId) :
    (∀ name, (Request.runAll (.empty unboundAsNone) rs).Has c name ↔
      ∃ d, (Request.runAll (.empty unboundAsNone) rs).Inherits c d ∧
        (Request.runAll (.empty unboundAsNone) rs).Declares d name) ∧
    ((Request.runAll (.empty unboundAsNone) rs).anyBased c = true ↔
      ∃ d, (Request.runAll (.empty unboundAsNone) rs).Inherits c d ∧
        (Request.runAll (.empty unboundAsNone) rs).OpenBased d) := by
  have harises : Arises True _ _ := arises_runAll hgiven honce (.inl trivial)
  generalize Request.runAll (.empty unboundAsNone) rs = g at harises ⊢
  refine ⟨fun name => ⟨harises.grounded.names c name, ?_⟩, harises.grounded.opened c, ?_⟩
  · rintro ⟨d, hcd, node, hd⟩
    induction hcd using Relation.ReflTransGen.head_induction_on with
    | refl => exact ⟨_, hd⟩
    | head hedge _ ih => exact harises.has_of_edge hedge ih
  · rintro ⟨d, hcd, hd⟩
    induction hcd using Relation.ReflTransGen.head_induction_on with
    | refl => exact harises.open_of_openBased hd
    | head hedge _ ih => exact harises.open_of_edge hedge ih

/-- Two classes that are bases of each other, and a third one whose base comes to be one of them,
and then anything. -/
def lateRequests : List Request :=
  tangledRequests ++ [.addClass "C" 8, .add (.plain []) 8, .setBases ⟨2⟩ [⟨15⟩], .addInput ⟨15⟩ ⟨0⟩,
    .seed ⟨15⟩ (.single .any)]

theorem inheritance_closure_late :
    (∃ d, (Request.runAll (.empty true) lateRequests).Inherits ⟨2⟩ d ∧
      (Request.runAll (.empty true) lateRequests).Declares d "x") ∧
    (Request.runAll (.empty true) lateRequests).anyBased ⟨2⟩ = true ∧
    ¬ ∃ d, (Request.runAll (.empty true) lateRequests).Inherits ⟨0⟩ d ∧
      (Request.runAll (.empty true) lateRequests).OpenBased d := by
  have hgiven : Request.AllGiven (.empty true) lateRequests := by decide +kernel
  have honce : (lateRequests.filterMap Request.basesOf?).Nodup := by decide +kernel
  have hthird := inheritance_closure true lateRequests hgiven honce ⟨2⟩
  have hfirst := inheritance_closure true lateRequests hgiven honce ⟨0⟩
  refine ⟨(hthird.1 "x").1 ⟨⟨⟨5⟩, .inherited 0⟩, by decide +kernel⟩, by decide +kernel, fun hopen => ?_⟩
  have hclosed : (Request.runAll (.empty true) lateRequests).anyBased ⟨0⟩ = false := by decide +kernel
  rw [hfirst.2.2 hopen] at hclosed
  cases hclosed

end Graph

end FlowTyping
