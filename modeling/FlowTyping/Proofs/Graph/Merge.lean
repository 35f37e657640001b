/-
What bringing the table of a class in step does, name by name.

An offer concerns the one entry of the table that has its name, and `entryAfter` says what becomes
of that entry; so the table after a merge is, for every name, a fold over the offers of this name
(`ClassInfo.Took`, `Merged`).  Own members are joined with the offered ones of the same name.  That
is the only way in which a merge connects nodes, and it never does so for the constructor
(`hasInput_mergeBases`); the declaration of a member obeys the same rule.  A write to an attribute
gives members to classes that lack them, and changes no entry that there is (`additions_write`).
-/
import FlowTyping.Proofs.Graph.Request
import FlowTyping.Proofs.Graph.Subclass

namespace FlowTyping.Graph

open List

variable {g g' g'' : Graph} {c d : ClassId} {name : String} {a b x y node : NodeId} {changed : Bool}
  {entry : Option Member} {info info' : ClassInfo} {offer : Offer} {p : ClassId} {position : Nat}
  {offers : List Offer}

/-! ### Connections -/

def HasInput (g : Graph) (id input : NodeId) : Prop :=
  ∃ inputs, g.rule? id = some (.plain inputs) ∧ input ∈ inputs

theorem HasInput.of_rule? (h : g'.HasInput a b) (hrule : g'.rule? = g.rule?) : g.HasInput a b := by
  rw [HasInput, hrule] at h
  exact h

theorem hasInput_connect (h : (g.connect a b).HasInput x y) : g.HasInput x y ∨ (x = a ∧ y = b) := by
  rcases connect_cases g a b with heq | ⟨inputs, hr, -, -, heq⟩
  · rw [heq] at h
    exact .inl h
  · obtain ⟨more, hmore, hy⟩ := h
    rw [heq, (Same.schedule _ _).rule?, (Same.subscribe _ _ _).rule?, rule?_setRule] at hmore
    split at hmore
    · next hx =>
      subst hx
      rw [hr] at hmore
      cases hmore
      rcases mem_append.1 hy with hy | hy
      · exact .inl ⟨inputs, hr, hy⟩
      · exact .inr ⟨rfl, mem_singleton.1 hy⟩
    · exact .inl ⟨more, hmore, hy⟩

/-! ### Links -/

def Linked (g : Graph) (c : ClassId) (a b : NodeId) : Prop :=
  ∃ info, g.class? c = some info ∧ ordered a b ∈ info.linked

theorem Linked.of_class? (h : g.Linked c a b) (hclass : g'.class? c = g.class? c) :
    g'.Linked c a b := by
  obtain ⟨info, hc, hab⟩ := h
  exact ⟨info, hclass.trans hc, hab⟩

theorem linked_setMember {member : Member} : (g.setMember c name member).Linked d a b ↔ g.Linked d a b := by
  rw [Linked, Linked, setMember, class?_modifyClass]
  split
  · rcases g.class? d with - | info <;> simp
  · exact Iff.rfl

/-- Linking connects the two nodes, and nothing else. -/
theorem hasInput_link (h : (g.link c a b).HasInput x y) :
    g.HasInput x y ∨ (x = a ∧ y = b) ∨ (x = b ∧ y = a) := by
  rcases link_cases g c a b with ⟨heq, -⟩ | heq
  · rw [heq] at h
    exact .inl h
  · rw [heq] at h
    rcases hasInput_connect h with h | h
    · exact (hasInput_connect h).imp_right .inl
    · exact .inr (.inr h)

/-! ### Taking up offers -/

/-- What becomes of an entry of a member table when a base offers a member of that name. -/
def entryAfter (entry : Option Member) (offer : Offer) : Option Member :=
  match entry with
  | none => some ⟨offer.node, .inherited offer.position⟩
  | some ⟨node, .own⟩ => some ⟨node, .own⟩
  | some ⟨node, .inherited earlier⟩ =>
    if offer.position < earlier ∧ node ≠ offer.node then
      some ⟨offer.node, .inherited offer.position⟩
    else some ⟨node, .inherited earlier⟩

/-- Offers never make a member a class's own, and take nothing from it that is its own. -/
theorem entryAfter_own_iff :
    entryAfter entry offer = some ⟨node, .own⟩ ↔ entry = some ⟨node, .own⟩ := by
  rcases entry with - | ⟨old, - | earlier⟩
  · simp [entryAfter]
  · simp [entryAfter]
  · simp only [entryAfter]
    split <;> simp

theorem foldl_entryAfter_own_iff :
    offers.foldl entryAfter entry = some ⟨node, .own⟩ ↔ entry = some ⟨node, .own⟩ := by
  induction offers generalizing entry with
  | nil => exact Iff.rfl
  | cons offer offers ih => rw [foldl_cons, ih, entryAfter_own_iff]

/-- An offered name is in the table in the end, and no other name gets there. -/
theorem isSome_foldl_entryAfter :
    (offers.foldl entryAfter entry).isSome ↔ entry.isSome ∨ ∃ offer, offer ∈ offers := by
  induction offers generalizing entry with
  | nil => simp
  | cons offer offers ih =>
    have hsome : (entryAfter entry offer).isSome := by
      rcases entry with - | ⟨old, - | earlier⟩
      · rfl
      · rfl
      · simp only [entryAfter]
        split <;> rfl
    rw [foldl_cons, ih]
    exact iff_of_true (.inl hsome) (.inr ⟨offer, mem_cons_self⟩)

/-- What becomes of a class that takes offers up: each entry of its table becomes what the offers of
that name make of it, and own members are linked with what is offered under their name, constructors
excepted. -/
structure Took (offers : List Offer) (info info' : ClassInfo) : Prop extends info.Keeps info' where
  table : ∀ name, info'.members.get? name =
    (offers.filter fun o => o.name = name).foldl entryAfter (info.members.get? name)
  joined : ∀ offer ∈ offers, ∀ node, info.members.get? offer.name = some ⟨node, .own⟩ →
    node ≠ offer.node → offer.name ≠ "__init__" → ordered node offer.node ∈ info'.linked

theorem Took.cons {info'' : ClassInfo} (h : Took [offer] info info')
    (h' : Took offers info' info'') : Took (offer :: offers) info info'' := by
  refine ⟨h.toKeeps.trans h'.toKeeps, fun name => ?_, fun o ho node hm hne hname => ?_⟩
  · rw [h'.table, h.table, ← foldl_append, ← filter_append, singleton_append]
  · rcases mem_cons.1 ho with rfl | ho
    · exact h'.linked _ (h.joined o (mem_singleton_self _) node hm hne hname)
    · refine h'.joined o ho node ?_ hne hname
      rw [h.table, foldl_entryAfter_own_iff]
      exact hm

/-- Taking up one offer, from what it does to the entry of its name. -/
theorem took_one (h : info.Keeps info') (hm : info.members.get? offer.name = entry)
    (htable : ∀ name, info'.members.get? name =
      if offer.name = name then entryAfter entry offer else info.members.get? name)
    (hjoined : ∀ node, entry = some ⟨node, .own⟩ → node ≠ offer.node → offer.name ≠ "__init__" →
      ordered node offer.node ∈ info'.linked) : Took [offer] info info' := by
  refine ⟨h, fun name => ?_, fun o ho node hown => ?_⟩
  · rw [htable]
    by_cases hname : offer.name = name
    · simp [hname, ← hm]
    · simp [hname]
  · rw [mem_singleton.1 ho] at hown ⊢
    exact hjoined node (hm.symm.trans hown)

theorem alters_takeUp (g : Graph) (c : ClassId) (changed : Bool) (offer : Offer) :
    Alters (Took [offer]) c g (takeUp c (g, changed) offer).1 := by
  -- the entry of this name, as the class has it
  have hget : ∀ {info entry}, g.member? c offer.name = entry → g.class? c = some info →
      info.members.get? offer.name = entry := fun hm hc => by
    rw [member?, hc] at hm
    exact hm
  have hput : ∀ {info : ClassInfo} {entry : Option Member} {member : Member}, g.class? c = some info →
      g.member? c offer.name = entry → entryAfter entry offer = some member → member.origin ≠ .own →
      Took [offer] info { info with members := info.members.insert offer.name member } := by
    intro info entry member hc hm hafter hown
    refine took_one ⟨rfl, rfl, fun _ hp => hp⟩ (hget hm hc) (fun name => ?_) fun node hnode => ?_
    · rw [Table.get?_insert, hafter]
    · rw [hnode] at hafter
      cases hafter
      exact absurd rfl hown
  unfold takeUp
  simp only
  split
  · next hm => exact alters_modifyClass fun info hc => hput hc hm rfl (by simp)
  · next node hm =>
    have hsame : ∀ {info name}, g.class? c = some info → info.members.get? name =
        if offer.name = name then entryAfter (some ⟨node, .own⟩) offer else info.members.get? name := by
      intro info name hc
      split
      · next hname => exact hname ▸ hget hm hc
      · rfl
    split
    · refine (alters_link g c node offer.node).imp fun info info' hc h => ?_
      refine took_one h.1 (hget hm hc) (fun name => ?_) fun n hn _ _ => ?_
      · rw [h.2.1]
        exact hsame hc
      · cases hn
        exact h.2.2
    · next hnot =>
      refine .refl fun info hc => took_one (.refl info) (hget hm hc) (fun _ => hsame hc) fun n hn hne hname => ?_
      cases hn
      exact absurd ⟨hne, hname⟩ hnot
  · next node earlier hm =>
    split
    · next hearlier =>
      exact alters_modifyClass fun info hc => hput hc hm (by rw [entryAfter, if_pos hearlier]) (by simp)
    · next hlater =>
      refine .refl fun info hc => took_one (.refl info) (hget hm hc) (fun name => ?_) fun n hn => ?_
      · split
        · next hname =>
          rw [entryAfter, if_neg hlater]
          exact hname ▸ hget hm hc
        · rfl
      · cases hn

theorem alters_takeUp_all (offers : List Offer) (g : Graph) (c : ClassId) (changed : Bool) :
    Alters (Took offers) c g (offers.foldl (takeUp c) (g, changed)).1 := by
  induction offers generalizing g changed with
  | nil => exact .refl fun info _ => ⟨.refl info, fun _ => rfl, forall_mem_nil _⟩
  | cons offer offers ih =>
    rw [foldl_cons]
    exact (alters_takeUp g c changed offer).trans (ih _ _) fun _ _ _ _ h h' => h.cons h'

/-- A pair of nodes that a merge joins: an own member of the class, and an offered one of the same
name, which is not that of the constructor. -/
def Joins (g : Graph) (c : ClassId) (offers : List Offer) (x y : NodeId) : Prop :=
  ∃ offer ∈ offers, offer.name ≠ "__init__" ∧
    ∃ node, g.member? c offer.name = some ⟨node, .own⟩ ∧
      ((x = node ∧ y = offer.node) ∨ (x = offer.node ∧ y = node))

theorem hasInput_takeUp (h : (takeUp c (g, changed) offer).1.HasInput x y) :
    g.HasInput x y ∨ g.Joins c [offer] x y := by
  revert h
  refine takeUp_induction (P := fun k => k.HasInput x y → _) .inl .inl fun node hm hname h => ?_
  exact (hasInput_link h).imp_right fun hxy => ⟨offer, mem_singleton_self _, hname, node, hm, hxy⟩

theorem own_of_takeUp (hc : g.class? c = some info)
    (h : (takeUp c (g, changed) offer).1.member? c name = some ⟨node, .own⟩) :
    g.member? c name = some ⟨node, .own⟩ := by
  obtain ⟨info', hc', htook⟩ := (alters_takeUp g c changed offer).changed info hc
  rw [member?, hc', Option.bind_some, htook.table, foldl_entryAfter_own_iff] at h
  rw [member?, hc]
  exact h

theorem hasInput_takeUp_all (hc : g.class? c = some info)
    (h : (offers.foldl (takeUp c) (g, changed)).1.HasInput x y) :
    g.HasInput x y ∨ g.Joins c offers x y := by
  induction offers generalizing g info changed with
  | nil => exact .inl h
  | cons offer offers ih =>
    obtain ⟨info', hc', -⟩ := (alters_takeUp g c changed offer).changed info hc
    have hjoined := @hasInput_takeUp g c x y changed offer
    have hown : ∀ name node, (takeUp c (g, changed) offer).1.member? c name = some ⟨node, .own⟩ →
        g.member? c name = some ⟨node, .own⟩ := fun name node => own_of_takeUp hc
    rw [foldl_cons] at h
    generalize takeUp c (g, changed) offer = state at hc' hjoined hown h
    obtain ⟨k, changed'⟩ := state
    rcases ih hc' h with hk | ⟨o, ho, hname, node, hm, hxy⟩
    · refine (hjoined hk).imp_right ?_
      rintro ⟨o, ho, hrest⟩
      exact ⟨o, mem_cons.2 (.inl (mem_singleton.1 ho)), hrest⟩
    · exact .inr ⟨o, mem_cons_of_mem _ ho, hname, node, hown _ _ hm, hxy⟩

/-! ### What bases offer -/

theorem BaseAt.mem_parents (h : g.BaseAt c position p) : p ∈ g.parents c := by
  obtain ⟨b, hb, hp⟩ := h
  exact Graph.mem_parents.2 ⟨b, mem_of_getElem? hb, hp⟩

theorem exists_baseAt (h : p ∈ g.parents c) : ∃ position, g.BaseAt c position p := by
  obtain ⟨b, hb, hp⟩ := mem_parents.1 h
  obtain ⟨position, hget⟩ := List.getElem?_of_mem hb
  exact ⟨position, b, hget, hp⟩

theorem mem_offers_of_member? {m : Member} (hbase : g.BaseAt c position p) (hne : p ≠ c)
    (hm : g.member? p name = some m) : ⟨position, name, m.node⟩ ∈ g.offers c := by
  obtain ⟨info, hp, hget⟩ := Option.bind_eq_some_iff.1 hm
  exact mem_offers_iff.2 ⟨p, info, hbase, hne, hp, m, Table.mem_entries_of_get? hget, rfl⟩

theorem exists_member?_of_mem_offers (h : offer ∈ g.offers c) :
    ∃ p, g.BaseAt c offer.position p ∧ p ≠ c ∧ ∃ m, g.member? p offer.name = some m := by
  obtain ⟨p, info, hbase, hne, hp, m, he, -⟩ := mem_offers_iff.1 h
  obtain ⟨m', hm'⟩ := Table.isSome_get?_of_mem he
  exact ⟨p, hbase, hne, m', Option.bind_eq_some_iff.2 ⟨info, hp, hm'⟩⟩

/-! ### Merging -/

/-- Whether the bases of a class leave open what it has. -/
def opens (g : Graph) (c : ClassId) : Bool :=
  (g.bases c).any fun base => (g.types base).toList.any (g.leavesOpen c)

/-- The graph in which a class has heard of its parents and taken up what they offer. -/
def taken (g : Graph) (c : ClassId) : Graph :=
  ((g.offers c).foldl (takeUp c) (g.subscribeToParents c, false)).1

/-- The graph in which it is left open what a class has. -/
def opened (g : Graph) (c : ClassId) : Graph :=
  g.modifyClass c fun info => { info with anyBased := true }

theorem mergeBases_fst (g : Graph) (c : ClassId) : (g.mergeBases c).1 =
      if g.opens c && !(g.taken c).anyBased c then (g.taken c).opened c else g.taken c := by
  simp only [mergeBases]
  rw [apply_ite Prod.fst]
  rfl

theorem alters_taken (g : Graph) (c : ClassId) : Alters (Took (g.offers c)) c g (g.taken c) := by
  have hsame := Same.subscribeToParents g c
  have htake := alters_takeUp_all (g.offers c) (g.subscribeToParents c) c false
  exact ⟨htake.types.trans hsame.types, fun d hd => (htake.others d hd).trans (congrFun hsame.class? d),
    fun info hc => htake.changed info ((congrFun hsame.class? c).trans hc)⟩

/-- What becomes of a class that is merged: it takes all offers up and may become open. -/
structure MergedInfo (offers : List Offer) (opens : Bool) (info info' : ClassInfo) : Prop where
  bases : info'.bases = info.bases
  anyBased : info'.anyBased = (info.anyBased || opens)
  table : ∀ name, info'.members.get? name =
    (offers.filter fun o => o.name = name).foldl entryAfter (info.members.get? name)
  joined : ∀ offer ∈ offers, ∀ node, info.members.get? offer.name = some ⟨node, .own⟩ →
    node ≠ offer.node → offer.name ≠ "__init__" → ordered node offer.node ∈ info'.linked

theorem alters_mergeBases (g : Graph) (c : ClassId) :
    Alters (MergedInfo (g.offers c) (g.opens c)) c g (g.mergeBases c).1 := by
  have htaken := alters_taken g c
  rw [mergeBases_fst]
  split
  · next hopen =>
    have hopened : Alters (fun i i' => i' = { i with anyBased := true }) c (g.taken c) ((g.taken c).opened c) :=
      alters_modifyClass fun _ _ => rfl
    refine htaken.trans hopened fun i i' i'' _ h h' => ?_
    subst h'
    exact ⟨h.bases, by simp [(Bool.and_eq_true _ _ ▸ hopen).1], h.table, h.joined⟩
  · next hopen =>
    refine htaken.imp fun info info' hc h => ⟨h.bases, ?_, h.table, h.joined⟩
    obtain ⟨info₁, hc₁, h₁⟩ := htaken.changed info hc
    rw [anyBased, hc₁] at hopen
    simp only [h₁.anyBased] at hopen
    rw [h.anyBased]
    cases hopens : g.opens c <;> cases hany : info.anyBased <;> simp [hopens, hany] at hopen ⊢

theorem mergeBases_of_none (hc : g.class? c = none) : (g.mergeBases c).1 = g := by
  simp [mergeBases, subscribeToParents, offers, bases, hc]

/-- **A merge connects only own members with offered ones of the same name**, and no constructors.
-/
theorem hasInput_mergeBases (h : (g.mergeBases c).1.HasInput x y) :
    g.HasInput x y ∨ g.Joins c (g.offers c) x y := by
  rcases hc : g.class? c with - | info
  · rw [mergeBases_of_none hc] at h
    exact .inl h
  have hsame := Same.subscribeToParents g c
  have htaken : (g.taken c).HasInput x y := by
    rw [mergeBases_fst] at h
    split at h
    · exact h
    · exact h
  rcases hasInput_takeUp_all ((congrFun hsame.class? c).trans hc) htaken with hold | hjoins
  · exact .inl (hold.of_rule? hsame.rule?)
  · rw [Joins, hsame.member?] at hjoins
    exact .inr hjoins

/-- The graph in which a node hears of a class. -/
def hearing (node : NodeId) (g : Graph) (p : ClassId) : Graph :=
  match g.class? p with
  | some info => g.subscribe node info.node
  | none => g

theorem Same.hearing (node : NodeId) (g : Graph) (p : ClassId) : Same g (g.hearing node p) := by
  unfold Graph.hearing
  split
  · exact .subscribe g _ _
  · exact .refl g

theorem Extends.hearing (node : NodeId) (g : Graph) (p : ClassId) : Extends g (g.hearing node p) := by
  unfold Graph.hearing
  split
  · exact .subscribe g _ _
  · exact .refl g

theorem subscribeToParents_eq (hc : g.class? c = some info) :
    g.subscribeToParents c = ((g.parents c).filter (· ≠ c)).foldl (hearing info.node) g := by
  unfold subscribeToParents
  rw [hc]
  rfl

theorem subscribeToParents_hears {pinfo : ClassInfo} (hv : g.Valid) (hc : g.class? c = some info)
    (hp : p ∈ g.parents c) (hne : p ≠ c) (hpinfo : g.class? p = some pinfo) :
    info.node ∈ (g.subscribeToParents c).dependents pinfo.node := by
  have hmem : p ∈ (g.parents c).filter (· ≠ c) := mem_filter.2 ⟨hp, by simpa using hne⟩
  obtain ⟨before, after, hsplit⟩ := append_of_mem hmem
  rw [subscribeToParents_eq hc, hsplit, foldl_append, foldl_cons]
  -- whatever was asked before and is asked after, this parent is asked in between
  have hfirst := Same.foldl (Same.hearing info.node) before g
  generalize before.foldl (hearing info.node) g = k at hfirst ⊢
  refine (Extends.foldl (Extends.hearing info.node) after _).dependents _ _ ?_
  rw [hearing, hfirst.class?, hpinfo]
  exact mem_dependents_subscribe.2 (.inr ⟨(hfirst.hasNode _).2 (hv.hasNode_class hpinfo), rfl, rfl⟩)

/-- **What merging does**: only the class itself changes.  Each entry of its table becomes what the
offers of that name make of it, the class becomes open if its bases leave open what it has, own
members are linked with what is offered under their name, and the class hears of all its parents. -/
structure Merged (c : ClassId) (g g' : Graph) : Prop where
  types : g'.types = g.types
  bases : g'.bases = g.bases
  others : ∀ d, c ≠ d → g'.class? d = g.class? d
  table : ∀ name, g'.member? c name =
    ((g.offers c).filter fun o => o.name = name).foldl entryAfter (g.member? c name)
  anyBased : g'.anyBased c = (g.anyBased c || g.opens c)
  linked : ∀ offer ∈ g.offers c, ∀ node, g.member? c offer.name = some ⟨node, .own⟩ →
    node ≠ offer.node → offer.name ≠ "__init__" → g'.Linked c node offer.node
  heard : ∀ info, g.class? c = some info → ∀ p ∈ g.parents c, p ≠ c →
    ∀ pinfo, g.class? p = some pinfo → info.node ∈ g'.dependents pinfo.node

theorem Merged.of_same (h : Merged c g g') (hs : Same g' g'')
    (hdep : ∀ id d, d ∈ g'.dependents id → d ∈ g''.dependents id) : Merged c g g'' := by
  refine ⟨hs.types.trans h.types, hs.bases.trans h.bases, fun d hd => ?_, fun name => ?_, ?_,
    fun offer ho node hm hne hname => ?_, fun info hc p hp hne pinfo hpinfo => ?_⟩
  · rw [hs.class?, h.others d hd]
  · rw [hs.member?, h.table]
  · rw [hs.anyBased, h.anyBased]
  · exact (h.linked offer ho node hm hne hname).of_class? (congrFun hs.class? c)
  · exact hdep _ _ (h.heard info hc p hp hne pinfo hpinfo)

theorem merged_mergeBases (hv : g.Valid) (hc : g.class? c = some info) :
    Merged c g (g.mergeBases c).1 := by
  have halters := alters_mergeBases g c
  obtain ⟨info', hc', hmerged⟩ := halters.changed info hc
  refine ⟨halters.types, funext fun d => ?_, halters.others, fun name => ?_, ?_,
    fun offer ho node hm hne hname => ⟨info', hc', ?_⟩, fun _ hinfo p hp hne pinfo hpinfo => ?_⟩
  · by_cases hd : c = d
    · rw [← hd, bases, bases, hc, hc']
      exact hmerged.bases
    · rw [bases, bases, halters.others d hd]
  · rw [member?, member?, hc, hc']
    exact hmerged.table name
  · rw [anyBased, anyBased, hc, hc']
    exact hmerged.anyBased
  · rw [member?, hc] at hm
    exact hmerged.joined offer ho node hm hne hname
  · -- the class has asked its parents before it takes anything up
    have hmoves := moves_subscribeToParents (D := nobody) hv c
    have hasked := subscribeToParents_hears hv hinfo hp hne hpinfo
    have hsub := (congrFun (Same.subscribeToParents g c).class? c).trans hinfo
    have htake := (moves_takeUp_all false (hmoves.valid hv) hsub fun o ho =>
      (mem_offers hv hinfo ho).extends hmoves.extends (.refl _)).2.2
    have htaken : _ ∈ (g.taken c).dependents pinfo.node := htake.extends.dependents _ _ hasked
    rw [mergeBases_fst]
    split
    · exact htaken
    · exact htaken

/-! ### Writes -/

/-- What a write may do to classes: an entry that there is stays, and a new one is the class's own.
-/
structure Additions (g g' : Graph) : Prop where
  bases : g'.bases = g.bases
  anyBased : g'.anyBased = g.anyBased
  linked : ∀ c a b, g'.Linked c a b ↔ g.Linked c a b
  entries : ∀ c name, g'.member? c name = g.member? c name ∨
    (g.member? c name = none ∧ ∃ node, g'.member? c name = some ⟨node, .own⟩)

namespace Additions

theorem of_classes (h : g'.classes = g.classes) : Additions g g' := by
  obtain ⟨hclass, hmember, hbases, hany⟩ := tables_congr h
  refine ⟨hbases, hany, fun c a b => ?_, fun c name => .inl (by rw [hmember])⟩
  rw [Linked, Linked, hclass]

theorem trans (h : Additions g g') (h' : Additions g' g'') : Additions g g'' := by
  refine ⟨h'.bases.trans h.bases, h'.anyBased.trans h.anyBased,
    fun c a b => (h'.linked c a b).trans (h.linked c a b), fun c name => ?_⟩
  rcases h'.entries c name with hsame | ⟨hnone, hown⟩
  · rw [hsame]
    exact h.entries c name
  · rcases h.entries c name with hsame | ⟨-, node, hnode⟩
    · exact .inr ⟨hsame ▸ hnone, hown⟩
    · rw [hnode] at hnone
      cases hnone

theorem setMember (h : g.member? c name = none) :
    Additions g (g.setMember c name ⟨node, .own⟩) := by
  refine ⟨funext fun d => ?_, funext fun d => ?_, fun d a b => linked_setMember, fun d n => ?_⟩
  · rw [Graph.bases, Graph.setMember, class?_modifyClass, Graph.bases]
    rcases g.class? d with - | info <;> by_cases hd : c = d <;> simp [hd]
  · rw [Graph.anyBased, Graph.setMember, class?_modifyClass, Graph.anyBased]
    rcases g.class? d with - | info <;> by_cases hd : c = d <;> simp [hd]
  · rw [member?, Graph.setMember, class?_modifyClass]
    split
    · next hd =>
      rw [← hd]
      rcases hc : g.class? c with - | info
      · exact .inl (by rw [member?, hc]; rfl)
      by_cases hn : name = n
      · rw [← hn]
        exact .inr ⟨h, node, by simp⟩
      · exact .inl (by simp [member?, hc, Table.get?_insert, hn])
    · exact .inl rfl

theorem ensureMember (g : Graph) (c : ClassId) (name : String) (line : Nat) :
    Additions g (g.ensureMember c name line).2 := by
  unfold Graph.ensureMember
  split
  · exact of_classes rfl
  · next hnone =>
    have hpush := classes_push g (.plain []) line
    refine ((of_classes hpush).trans (setMember ?_)).trans (of_classes (Same.touchClass _ c).classes)
    rw [(tables_congr hpush).2.1]
    exact hnone

theorem writeTo (g : Graph) (attr : String) (value : NodeId) (line : Nat) (t : Ty) :
    Additions g (writeTo attr value line g t) := by
  have hconnect : ∀ k a b, Additions k (k.connect a b) := fun k a b => of_classes (classes_connect k a b)
  cases t with
  | instanceOf c | classObject c => exact (ensureMember g c attr line).trans (hconnect _ _ _)
  | moduleObject m =>
    simp only [Graph.writeTo]
    split
    · exact hconnect _ _ _
    · exact of_classes rfl
  | _ => exact of_classes rfl

end Additions

/-- **A write changes no entry that there is.** -/
theorem additions_write (g : Graph) (object : NodeId) (attr : String) (value : NodeId)
    (line : Nat) : Additions g (g.write object attr value line) := by
  unfold write
  generalize (g.types object).toList = ts
  induction ts generalizing g with
  | nil => exact .of_classes rfl
  | cons t ts ih => exact (Additions.writeTo g attr value line t).trans (ih _)

/-! ### Declarations -/

/-- **A declaration connects the member only with the one that it replaces**, and no constructors.
-/
theorem hasInput_withOwnMember (h : (g.withOwnMember c name node).HasInput x y) :
    g.HasInput x y ∨ (name ≠ "__init__" ∧ ∃ old, g.member? c name = some old ∧
      ((x = node ∧ y = old.node) ∨ (x = old.node ∧ y = node))) := by
  replace h := h.of_rule? (Same.touchClass _ c).rule?
  rcases hm : g.member? c name with - | old
  · rw [hm] at h
    exact .inl h
  · rw [hm] at h
    simp only [joinReplaced] at h
    split at h
    · next hjoin =>
      exact (hasInput_link h).imp_right fun hxy => ⟨hjoin.2, old, rfl, hxy⟩
    · exact .inl h

end FlowTyping.Graph
