/-
Working out a node is a sequence of moves.

For each function of `Graph.Change` and `Graph.Propagation` there is one lemma that takes it apart
into moves.  The ones that report whether something has changed name the node whose dependents have
to be told: `grow` and `mergeBases` change nothing behind the back of their flag.  A write to a
member tells the dependents of the class itself, so it leaves nothing to be told.
-/
import FlowTyping.Proofs.Graph.Move

namespace FlowTyping

open List

/-- A rule that finds types; the other two change tables. -/
def Rule.Finds : Rule → Prop
  | .write .. | .members _ => False
  | _ => True

namespace Graph

variable {g g' : Graph} {D : NodeId → Prop} {attr : String} {c : ClassId}
  {id object value b : NodeId} {info : ClassInfo} {offer : Offer} {r : Rule} {rest : List NodeId}
  {t : Ty} {types : TypeSet}

theorem Moves.foldl {α : Type} {step : Graph → α → Graph} {as : List α}
    (h : ∀ a ∈ as, ∀ k, Moves D g k → Moves D k (step k a)) : Moves D g (as.foldl step g) := by
  have hrun : ∀ bs : List α, (∀ b ∈ bs, b ∈ as) → ∀ k, Moves D g k → Moves D g (bs.foldl step k) := by
    intro bs
    induction bs with
    | nil => exact fun _ k hk => hk
    | cons b bs ih =>
      intro hsub k hk
      apply ih fun c hc => hsub c (mem_cons_of_mem b hc)
      exact hk.trans (h b (hsub b mem_cons_self) k hk)
  exact hrun as (fun _ hb => hb) g .refl

/-! ### Subscribing and joining -/

theorem moves_subscribe_all {dependent : NodeId} (hd : g.HasNode dependent)
    (sources : List NodeId) :
    Moves D g (sources.foldl (fun g source => g.subscribe dependent source) g) := by
  apply Moves.foldl
  intro s _ k hk
  exact .single (.subscribe (hk.extends.hasNode hd) s)

theorem moves_subscribeToParents (hv : g.Valid) (c : ClassId) :
    Moves D g (g.subscribeToParents c) := by
  unfold subscribeToParents
  split
  · exact .refl
  · next info hc =>
    apply Moves.foldl
    intro parent _ k hk
    split
    · exact .single (.subscribe (hk.extends.hasNode (hv.hasNode_class hc)) _)
    · exact .refl

theorem moves_connect {input : NodeId} (hin : g.HasNode input) (id : NodeId) :
    Moves D g (g.connect id input) := by
  rcases connect_cases g id input with heq | ⟨inputs, hr, -, hnew, heq⟩
  · rw [heq]
  · rw [heq]
    exact .single (.connect hr hnew hin)

/-! ### Member tables -/

theorem moves_link {a : NodeId} (ha : g.HasNode a) (hb : g.HasNode b) (c : ClassId) :
    Moves D g (g.link c a b) := by
  unfold link
  split
  · exact .refl
  · next info hc =>
    split
    · exact .refl
    · next hnew =>
      have hnote : Moves D g
          (g.modifyClass c fun info => { info with linked := ordered a b :: info.linked }) :=
        .single (.link hc ha hb hnew)
      have hab := hnote.trans (moves_connect (hnote.extends.hasNode hb) a)
      exact hab.trans (moves_connect (hab.extends.hasNode ha) b)

/-- What the offers of bases are like: the position is that of a base, and the member exists. -/
structure Offered (g : Graph) (info : ClassInfo) (offer : Offer) : Prop where
  position : offer.position < info.bases.length
  node : g.HasNode offer.node
  name : ∃ d m, g.member? d offer.name = some m

theorem Offered.extends {info' : ClassInfo} (h : g.Offered info offer)
    (hext : Extends g g') (hinfo : info.Extends info') : g'.Offered info' offer := by
  obtain ⟨d, m, hm⟩ := h.name
  obtain ⟨m', hm', -⟩ := hext.member? hm
  exact ⟨hinfo.bases ▸ h.position, hext.hasNode h.node, d, m', hm'⟩

/-- Taking up an offer changes the table only if it says so. -/
theorem moves_takeUp (changed : Bool) (hv : g.Valid) (hc : g.class? c = some info)
    (hoffer : g.Offered info offer) :
    (changed = true → (takeUp c (g, changed) offer).2 = true) ∧
      ((takeUp c (g, changed) offer).2 = true →
        changed = true ∨ Gain g (takeUp c (g, changed) offer).1) ∧
      Moves (fun d => (takeUp c (g, changed) offer).2 = true ∧ d = info.node) g
        (takeUp c (g, changed) offer).1 := by
  have htake (hbetter : ∀ old, g.member? c offer.name = some old →
      ∃ earlier, old.origin = .inherited earlier ∧ offer.position < earlier) :
      Gain g (g.setMember c offer.name ⟨offer.node, .inherited offer.position⟩) ∧
        Moves (· = info.node) g
          (g.setMember c offer.name ⟨offer.node, .inherited offer.position⟩) := by
    refine ⟨.setMember hc hoffer.position fun old hold => ?_,
      .single (.inherit hc hoffer.node hoffer.position hoffer.name hbetter rfl)⟩
    obtain ⟨earlier, horigin, hlt⟩ := hbetter old hold
    rw [horigin]
    exact Nat.succ_lt_succ hlt
  rcases hm : g.member? c offer.name with - | ⟨node, - | earlier⟩
  · -- a new name
    obtain ⟨hgain, hmoves⟩ := htake fun old hold => by rw [hm] at hold; cases hold
    simp only [takeUp, hm]
    exact ⟨fun _ => trivial, fun _ => .inr hgain, hmoves.mono fun d hd => ⟨trivial, hd⟩⟩
  · -- an own member is joined with the offered one
    simp only [takeUp, hm]
    split
    · exact ⟨fun h => h, .inl, moves_link (hv.hasNode_member hm) hoffer.node c⟩
    · exact ⟨fun h => h, .inl, .refl⟩
  · -- an inherited member gives way to one from an earlier base
    simp only [takeUp, hm]
    split
    · next hlt =>
      obtain ⟨hgain, hmoves⟩ := htake fun old hold => by
        rw [hm] at hold
        cases hold
        exact ⟨earlier, rfl, hlt.1⟩
      exact ⟨fun _ => rfl, fun _ => .inr hgain, hmoves.mono fun d hd => ⟨rfl, hd⟩⟩
    · exact ⟨fun h => h, .inl, .refl⟩

theorem mem_offersOf {position : Nat} : offer ∈ g.offersOf c position t ↔
    offer.position = position ∧ ∃ p info, t = .classObject p ∧ p ≠ c ∧ g.class? p = some info ∧
      ∃ m, (offer.name, m) ∈ info.members.entries ∧ m.node = offer.node := by
  obtain ⟨place, name, node⟩ := offer
  constructor
  · intro h
    unfold offersOf at h
    split at h
    · next p =>
      split at h
      · next info hinfo =>
        split at hinfo
        · cases hinfo
        · next hne =>
          obtain ⟨⟨n, m⟩, he, heq⟩ := mem_map.1 h
          cases heq
          exact ⟨rfl, p, info, rfl, hne, hinfo, m, he, rfl⟩
      · exact absurd h not_mem_nil
    · exact absurd h not_mem_nil
  · rintro ⟨rfl, p, info, rfl, hne, hinfo, m, he, rfl⟩
    simp only [offersOf, if_neg hne, hinfo]
    exact mem_map.2 ⟨(name, m), he, rfl⟩

/-- The class from which a class is offered members at some position. -/
def BaseAt (g : Graph) (c : ClassId) (position : Nat) (p : ClassId) : Prop :=
  ∃ b, (g.bases c)[position]? = some b ∧ .classObject p ∈ g.types b

theorem mem_offers_iff :
    offer ∈ g.offers c ↔ ∃ p info, g.BaseAt c offer.position p ∧ p ≠ c ∧ g.class? p = some info ∧
      ∃ m, (offer.name, m) ∈ info.members.entries ∧ m.node = offer.node := by
  simp only [offers, mem_flatMap, mem_offersOf]
  constructor
  · rintro ⟨⟨b, i⟩, hb, t, ht, rfl, p, info, rfl, hrest⟩
    exact ⟨p, info, ⟨b, mk_mem_zipIdx_iff_getElem?.1 hb, ht⟩, hrest⟩
  · rintro ⟨p, info, ⟨b, hb, ht⟩, hrest⟩
    exact ⟨(b, offer.position), mk_mem_zipIdx_iff_getElem?.2 hb, .classObject p, ht, rfl, p, info, rfl, hrest⟩

theorem mem_offers (hv : g.Valid) (hc : g.class? c = some info) (h : offer ∈ g.offers c) :
    g.Offered info offer := by
  obtain ⟨parent, info', ⟨b, hb, -⟩, -, hparent, member, he, hnode⟩ := mem_offers_iff.1 h
  obtain ⟨m, hm⟩ := Table.isSome_get?_of_mem he
  refine ⟨?_, hnode ▸ (hv.classes parent info' hparent).members _ he, parent, m, ?_⟩
  · rw [bases, hc] at hb
    exact (List.getElem?_eq_some_iff.1 hb).1
  · exact Option.bind_eq_some_iff.2 ⟨info', hparent, hm⟩

/-- Taking up offers one after the other; the flag covers all changes. -/
theorem moves_takeUp_all {offers : List Offer} (changed : Bool) (hv : g.Valid)
    (hc : g.class? c = some info) (hoffers : ∀ offer ∈ offers, g.Offered info offer) :
    (changed = true → (offers.foldl (takeUp c) (g, changed)).2 = true) ∧
      ((offers.foldl (takeUp c) (g, changed)).2 = true →
        changed = true ∨ Gain g (offers.foldl (takeUp c) (g, changed)).1) ∧
      Moves (fun d => (offers.foldl (takeUp c) (g, changed)).2 = true ∧ d = info.node) g
        (offers.foldl (takeUp c) (g, changed)).1 := by
  induction offers generalizing g changed info with
  | nil => exact ⟨fun h => h, .inl, .refl⟩
  | cons offer offers ih =>
    obtain ⟨hflag, hgain, hfirst⟩ :=
      moves_takeUp changed hv hc (hoffers offer mem_cons_self)
    rw [foldl_cons]
    generalize takeUp c (g, changed) offer = state at hflag hgain hfirst ⊢
    obtain ⟨k, changed'⟩ := state
    have hext := hfirst.extends
    obtain ⟨info', hc', hinfo⟩ := hext.classes c info hc
    have hoffers' : ∀ o ∈ offers, k.Offered info' o := fun o ho =>
      (hoffers o (mem_cons_of_mem _ ho)).extends hext hinfo
    obtain ⟨hflag', hgain', hrest⟩ := ih changed' (hfirst.valid hv) hc' hoffers'
    rw [hinfo.node] at hrest
    refine ⟨fun h => hflag' (hflag h), fun h => ?_, ?_⟩
    · rcases hgain' h with h | h
      · exact (hgain h).imp_right fun hg => hg.of_extends hrest.extends
      · exact .inr (.after hext h)
    · exact (hfirst.mono fun d hd => ⟨hflag' hd.1, hd.2⟩).trans hrest

/-- Bringing the table of a class in step changes it only if it says so. -/
theorem moves_mergeBases (hv : g.Valid) (hc : g.class? c = some info) :
    ((g.mergeBases c).2 = true → Gain g (g.mergeBases c).1) ∧
      Moves (fun d => (g.mergeBases c).2 = true ∧ d = info.node) g (g.mergeBases c).1 := by
  have hsame := Same.subscribeToParents g c
  have hc' : (g.subscribeToParents c).class? c = some info := by
    rw [hsame.class?]
    exact hc
  have hasked : Extends g (g.subscribeToParents c) :=
    (moves_subscribeToParents (D := fun _ => False) hv c).extends
  have hoffers : ∀ offer ∈ g.offers c, (g.subscribeToParents c).Offered info offer := by
    intro offer hoffer
    exact (mem_offers hv hc hoffer).extends hasked (.refl info)
  have hk := (moves_subscribeToParents (D := fun _ => False) hv c).valid hv
  obtain ⟨-, hgain, htake⟩ := moves_takeUp_all false hk hc' hoffers
  simp only [mergeBases]
  generalize (g.offers c).foldl (takeUp c) (g.subscribeToParents c, false) = state at hgain htake ⊢
  obtain ⟨k, changed⟩ := state
  split
  · next hopen =>
    obtain ⟨info', hk, hinfo⟩ := htake.extends.classes c info hc'
    have hclosed : info'.anyBased = false := by
      have hno := (Bool.and_eq_true _ _ ▸ hopen).2
      simp only [anyBased, hk] at hno
      simpa using hno
    refine ⟨fun _ => .after (hasked.trans htake.extends) (.openUp hk hclosed), ?_⟩
    refine (moves_subscribeToParents hv c).trans ?_
    refine (htake.mono fun d hd => ⟨rfl, hd.2⟩).trans (.single (.openUp hk hclosed ?_))
    exact ⟨rfl, hinfo.node⟩
  · refine ⟨fun h => ?_, (moves_subscribeToParents hv c).trans htake⟩
    exact .after hasked ((hgain h).resolve_left Bool.false_ne_true)

/-! ### Writing to members -/

theorem moves_ensureMember {name : String} (line : Nat) (hc : g.class? c = some info)
    (hattr : ∃ id object value, g.rule? id = some (.write object name value)) :
    Moves D g (g.ensureMember c name line).2 := by
  unfold ensureMember
  split
  · exact .refl
  · next hnone => exact .single (.newMember line hc hnone hattr)

theorem moves_writeTo (line : Nat) (hvalue : g.HasNode value) (hT : g.HasType t)
    (hattr : ∃ id object value, g.rule? id = some (.write object attr value)) :
    Moves D g (writeTo attr value line g t) := by
  have hclass : ∀ c : ClassId, c.index < g.classes.size → Moves D g
      ((g.ensureMember c attr line).2.connect (g.ensureMember c attr line).1 value) := by
    intro c hlt
    obtain ⟨info, hc⟩ := class?_isSome hlt
    have hmember : Moves D g (g.ensureMember c attr line).2 := moves_ensureMember line hc hattr
    exact hmember.trans (moves_connect (hmember.extends.hasNode hvalue) _)
  cases t with
  | instanceOf c | classObject c => exact hclass c hT
  | moduleObject m =>
    simp only [writeTo]
    split
    · exact moves_connect hvalue _
    · exact .refl
  | _ => exact .refl

theorem moves_write (line : Nat) (hv : g.Valid)
    (hr : g.rule? id = some (.write object attr value)) :
    Moves D g (g.write object attr value line) := by
  apply Moves.foldl
  intro t ht k hk
  have hext := hk.extends
  apply moves_writeTo line
  · exact hext.hasNode (hv.values id object attr value hr)
  · exact hext.hasType (hv.types object t ht)
  · exact ⟨id, object, value, hext.write hr⟩

/-! ### Turns -/

/-- The graph with one more turn counted. -/
def tick (g : Graph) : Graph := { g with recomputations := g.recomputations + 1 }

theorem recompute_of_none (h : g.rule? id = none) : g.recompute id = (g.tick, false) := by
  rw [rule?_eq_map, Option.map_eq_none_iff, node?] at h
  simp only [recompute, h]
  rfl

theorem recompute_of_write (h : g.rule? id = some (.write object attr value)) :
    g.recompute id = (g.tick.write object attr value (g.line id), false) := by
  obtain ⟨n, hn, hr⟩ := rule?_eq_some_iff.1 h
  rw [line_eq_elim, hn]
  rw [node?] at hn
  simp only [recompute, hn, hr]
  rfl

theorem recompute_of_members (h : g.rule? id = some (.members c)) :
    g.recompute id = g.tick.mergeBases c := by
  obtain ⟨n, hn, hr⟩ := rule?_eq_some_iff.1 h
  rw [node?] at hn
  simp only [recompute, hn, hr]
  rfl

theorem recompute_of_finds (h : g.rule? id = some r) (hr : r.Finds) : g.recompute id =
      (g.tick.find? r).elim (g.tick, false) fun found =>
        (found.watched.foldl (fun g source => g.subscribe id source) g.tick).grow id
          found.types := by
  obtain ⟨n, hn, hnr⟩ := rule?_eq_some_iff.1 h
  rw [node?] at hn
  subst hnr
  simp only [recompute, hn]
  split
  · next he =>
    rw [he] at hr
    exact absurd hr not_false
  · next he =>
    rw [he] at hr
    exact absurd hr not_false
  · rw [tick]
    split
    · next hf =>
      rw [hf]
      rfl
    · next hf =>
      rw [hf]
      rfl

theorem moves_tick (g : Graph) : Moves D g g.tick := .single (.tally _ _)

/-- What a rule finds can be derived. -/
theorem derivable_of_find? {f : Finding} (hf : g.find? r = some f) (ht : t ∈ f.types) :
    g.Derivable t := fun _ hP hall => find?_closed hP hall hf ht

theorem Derivable.of_same (h : g.Derivable t) (hs : Same g g') : g'.Derivable t := by
  intro P hP hall
  rw [hs.types] at hall
  refine h P { hP with submodule := fun m info name sub hm hsub => ?_ } hall
  rw [← hs.module?] at hm
  exact hP.submodule m info name sub hm hsub

theorem moves_grow (hid : g.HasNode id) (hT : ∀ t ∈ types, g.Derivable t) :
    ((g.grow id types).2 = true → Gain g (g.grow id types).1) ∧
      Moves (fun d => (g.grow id types).2 = true ∧ d = id) g (g.grow id types).1 := by
  unfold grow
  split
  · exact ⟨fun h => absurd h Bool.false_ne_true, .refl⟩
  · next hsub =>
    have hnew : ∃ t ∈ types, t ∉ g.types id := by
      by_contra hno
      push Not at hno
      exact hsub (TypeSet.isSubset_iff.2 hno)
    have hput : Moves (fun d => true = true ∧ d = id) g (g.putTypes id types) :=
      .single (.grow hid hT hnew ⟨rfl, rfl⟩)
    have htally : Move (fun d => true = true ∧ d = id) (g.putTypes id types)
        { g.putTypes id types with growths := g.growths + 1 } := .tally _ _
    exact ⟨fun _ => (Gain.putTypes hid hnew).of_extends htally.extends, hput.tail htally⟩

/-- **Working out a node is a sequence of moves**, and what is left to be told concerns the
dependents of the node, if the flag is set; the flag is set only if something new holds. -/
theorem recompute_moves (hv : g.Valid) (id : NodeId) :
    ((g.recompute id).2 = true → Gain g (g.recompute id).1) ∧
      Moves (fun d => (g.recompute id).2 = true ∧ d = id) g (g.recompute id).1 := by
  have hext : Extends g g.tick := (moves_tick (D := fun _ => False) g).extends
  have htick : g.tick.Valid := (moves_tick (D := fun _ => False) g).valid hv
  rcases hr : g.rule? id with - | r
  · rw [recompute_of_none hr]
    exact ⟨fun h => absurd h Bool.false_ne_true, moves_tick g⟩
  by_cases hfinds : r.Finds
  · rw [recompute_of_finds hr hfinds]
    rcases hf : g.tick.find? r with - | f
    · exact ⟨fun h => absurd h Bool.false_ne_true, moves_tick g⟩
    simp only [Option.elim_some]
    have hid : g.tick.HasNode id := (hasNode_of_rule? hr : g.HasNode id)
    have hasked := (moves_subscribe_all (D := fun _ => False) hid f.watched).extends
    have hsame : Same g.tick (f.watched.foldl (fun g source => g.subscribe id source) g.tick) :=
      Same.foldl (fun g s => Same.subscribe g id s) _ _
    obtain ⟨hgain, hgrow⟩ := moves_grow (hasked.hasNode hid)
      fun t ht => (derivable_of_find? hf ht).of_same hsame
    refine ⟨fun h => .after (hext.trans hasked) (hgain h), ?_⟩
    exact (moves_tick g).trans ((moves_subscribe_all hid f.watched).trans hgrow)
  · cases r with
    | write object attr value =>
      rw [recompute_of_write hr]
      exact ⟨fun h => absurd h Bool.false_ne_true, (moves_tick g).trans (moves_write _ htick hr)⟩
    | members c =>
      obtain ⟨info, hc, rfl⟩ := (hv.owner id c).1 hr
      rw [recompute_of_members hr]
      obtain ⟨hgain, hmerge⟩ := moves_mergeBases htick hc
      exact ⟨fun h => .after hext (hgain h), (moves_tick g).trans hmerge⟩
    | _ => exact absurd trivial hfinds

/-- Telling the dependents of the node is all that a turn adds to working it out. -/
theorem same_turn (g : Graph) (id : NodeId) (rest : List NodeId) :
    Same ({ g with worklist := rest }.recompute id).1 (g.turn id rest) ∧
      (g.turn id rest).dependents = ({ g with worklist := rest }.recompute id).1.dependents := by
  unfold turn
  simp only
  split
  · exact ⟨.touch _ id, dependents_touch _ id⟩
  · exact ⟨.refl _, rfl⟩

section

variable (hv : g.Valid) (hw : g.worklist = id :: rest)
include hv hw

theorem turn_extends : Extends g (g.turn id rest) := by
  obtain ⟨hsame, hdependents⟩ := same_turn g id rest
  have hpop : Extends g { g with worklist := rest } := .of_same .counts fun _ _ hd => hd
  refine (hpop.trans (recompute_moves (hv.pop hw) id).2.extends).trans (.of_same hsame fun b d hd => ?_)
  rw [hdependents]
  exact hd

/-- A turn makes progress, or it changes no set, rule or table and schedules nobody. -/
theorem turn_progress : (Same g (g.turn id rest) ∧ (g.turn id rest).worklist = rest) ∨
    Gain g (g.turn id rest) := by
  have hpop : Extends g { g with worklist := rest } := .of_same .counts fun _ _ hd => hd
  obtain ⟨hgain, hmoves⟩ := recompute_moves (hv.pop hw) id
  unfold turn
  simp only
  split
  · next hflag => exact .inr ((hgain hflag).of_extends (.touch _ id) |>.after hpop)
  · exact hmoves.progress.imp (fun h => ⟨.trans .counts h.1, h.2⟩) (.after hpop)

end

theorem rule?_grow (g : Graph) (id : NodeId) (types : TypeSet) :
    (g.grow id types).1.rule? = g.rule? := by
  unfold grow
  split
  · rfl
  · exact rule?_putTypes g id types

theorem mem_types_grow (h : t ∈ (g.grow id types).1.types b) :
    t ∈ g.types b ∨ (b = id ∧ t ∈ types) := by
  unfold grow at h
  split at h
  · exact .inl h
  · exact (mem_types_putTypes.1 h).imp_right fun hb => hb.2

/-- The turn of a node that finds types grows its set by what it finds and leaves all else. -/
theorem turn_finds (hr : g.rule? id = some r) (hfinds : r.Finds) (rest : List NodeId) :
    (g.turn id rest).rule? = g.rule? ∧ (g.turn id rest).classes = g.classes ∧
      ∀ b t, t ∈ (g.turn id rest).types b → t ∈ g.types b ∨
        (b = id ∧ ∃ f, g.find? r = some f ∧ t ∈ f.types) := by
  have hrun := recompute_of_finds (g := { g with worklist := rest }) hr hfinds
  have hfind : ({ g with worklist := rest } : Graph).tick.find? r = g.find? r := rfl
  rw [hfind] at hrun
  have hturn := (same_turn g id rest).1
  rw [hturn.rule?, hturn.classes, hturn.types, hrun]
  rcases hf : g.find? r with - | f
  · exact ⟨rfl, rfl, fun b t ht => .inl ht⟩
  · simp only [Option.elim_some]
    set s := f.watched.foldl (fun g source => g.subscribe id source)
      ({ g with worklist := rest } : Graph).tick
    have hsame : Same ({ g with worklist := rest } : Graph).tick s :=
      Same.foldl (fun g w => Same.subscribe g id w) _ _
    refine ⟨?_, ?_, fun b t ht => ?_⟩
    · rw [rule?_grow, hsame.rule?]
      rfl
    · have hgrow : (s.grow id f.types).1.classes = s.classes := by
        unfold grow
        split <;> rfl
      rw [hgrow, hsame.classes]
      rfl
    · rcases mem_types_grow ht with hold | ⟨hb, hfound⟩
      · rw [hsame.types] at hold
        exact .inl hold
      · exact .inr ⟨hb, f, rfl, hfound⟩

end Graph

end FlowTyping
