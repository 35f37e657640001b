/-
When working everything out once more changes nothing.

A node is in step if working it out changes no set, no rule and no table; `InStep` says what this
means for each kind of rule.  `repropagate` leaves a sound graph as it is exactly if every node is
in step (`repropagate_same_iff`).  Value nodes always are; calls, attributes of modules, writes and
classes read more than they are told about, so for them it is a condition.
-/
import FlowTyping.Proofs.Graph.Build

namespace FlowTyping.Graph

open List

variable {g g' : Graph} {D : NodeId → Prop} {attr : String} {c : ClassId} {id input value : NodeId}
  {info : ClassInfo} {offer : Offer} {r : Rule} {β : Type} {t : Ty} {line : Nat}

/-! ### Nodes in step -/

/-- Whether a node flows into another one as far as that one takes inputs. -/
def Flows (g : Graph) (id input : NodeId) : Prop :=
  ∀ inputs, g.rule? id = some (.plain inputs) → id = input ∨ input ∈ inputs

/-- Whether a value has got into an attribute of a type. -/
def Stored (g : Graph) (attr : String) (value : NodeId) : Ty → Prop
  | .instanceOf c | .classObject c =>
    ∃ member, g.member? c attr = some member ∧ g.Flows member.node value
  | .moduleObject m =>
    ∀ node, (g.module? m).bind (·.exports.get? attr) = some node → g.Flows node value
  | _ => True

/-- Whether a class has what a base offers: the offered member, one from a base that is not later,
or a member of its own that is joined with the offered one. -/
def Taken (g : Graph) (c : ClassId) (offer : Offer) : Prop :=
  match g.member? c offer.name with
  | none => False
  | some ⟨node, .own⟩ => node = offer.node ∨ offer.name = "__init__" ∨
      ∃ info, g.class? c = some info ∧ ordered node offer.node ∈ info.linked
  | some ⟨node, .inherited earlier⟩ => earlier ≤ offer.position ∨ node = offer.node

/-- Whether working out a node with some rule would change nothing. -/
def InStep (g : Graph) (id : NodeId) : Rule → Prop
  | .write object attr value => ∀ t ∈ g.types object, g.Stored attr value t
  | .members c => (∀ offer ∈ g.offers c, g.Taken c offer) ∧
      ∀ base ∈ g.bases c, ∀ t ∈ g.types base, g.leavesOpen c t = true → g.anyBased c = true
  | r => ∀ f, g.find? r = some f → ∀ t ∈ f.types, t ∈ g.types id

theorem inStep_of_finds (hfinds : r.Finds) :
    g.InStep id r ↔ ∀ f, g.find? r = some f → ∀ t ∈ f.types, t ∈ g.types id := by
  cases r with
  | write object attr value | members c => exact absurd hfinds not_false
  | _ => exact Iff.rfl

theorem Flows.of_same (h : g.Flows id input) (hs : Same g g') : g'.Flows id input := by
  intro inputs hr
  rw [hs.rule?] at hr
  exact h inputs hr

theorem Stored.of_same (h : g.Stored attr value t) (hs : Same g g') : g'.Stored attr value t := by
  have hclass : ∀ c, (∃ member, g.member? c attr = some member ∧ g.Flows member.node value) →
      ∃ member, g'.member? c attr = some member ∧ g'.Flows member.node value := by
    rintro c ⟨member, hm, hflows⟩
    refine ⟨member, ?_, hflows.of_same hs⟩
    rw [hs.member?]
    exact hm
  cases t with
  | instanceOf c | classObject c => exact hclass c h
  | moduleObject m =>
    intro node hnode
    rw [hs.module?] at hnode
    exact (h node hnode).of_same hs
  | _ => trivial

theorem Taken.of_same (h : g.Taken c offer) (hs : Same g g') : g'.Taken c offer := by
  unfold Taken at h ⊢
  rw [hs.member?, hs.class?]
  exact h

theorem InStep.of_same (h : g.InStep id r) (hs : Same g g') : g'.InStep id r := by
  by_cases hfinds : r.Finds
  · rw [inStep_of_finds hfinds] at h ⊢
    rw [hs.find?, hs.types]
    exact h
  · cases r with
    | write object attr value =>
      intro t ht
      rw [hs.types] at ht
      exact (h t ht).of_same hs
    | members c =>
      have hopen : g'.leavesOpen c = g.leavesOpen c := by
        funext t
        cases t <;> simp only [leavesOpen, hs.anyBased]
      have hoffers : g'.offers c = g.offers c := by
        have hoffersOf : g'.offersOf c = g.offersOf c := by
          funext position t
          cases t <;> simp only [offersOf, hs.class?]
        rw [offers, offers, hs.bases, hs.types, hoffersOf]
      refine ⟨fun offer hoffer => ?_, fun base hbase t ht => ?_⟩
      · rw [hoffers] at hoffer
        exact (h.1 offer hoffer).of_same hs
      · rw [hs.bases] at hbase
        rw [hs.types] at ht
        rw [hopen, hs.anyBased]
        exact h.2 base hbase t ht
    | _ => exact absurd trivial hfinds

/-- Value nodes of a sound graph are in step. -/
theorem Sound.inStep (h : g.Sound) (hr : g.rule? id = some r) (hvalue : g.IsValue r) :
    g.InStep id r := by
  have hfinds : r.Finds := by
    cases r with
    | write object attr value | members c => exact absurd hvalue not_false
    | _ => trivial
  rw [inStep_of_finds hfinds]
  intro f hf
  exact (h.settled id r hr hvalue f hf).2

/-! ### Working out a node that is in step -/

theorem connect_of_flows (h : g.Flows id input) : g.connect id input = g := by
  rcases connect_cases g id input with heq | ⟨inputs, hr, hne, hnew, -⟩
  · exact heq
  · exact absurd (h inputs hr) (not_or.2 ⟨hne, hnew⟩)

theorem writeTo_of_stored (line : Nat) (h : g.Stored attr value t) :
    writeTo attr value line g t = g := by
  have hclass : ∀ c, (∃ member, g.member? c attr = some member ∧ g.Flows member.node value) →
      (g.ensureMember c attr line).2.connect (g.ensureMember c attr line).1 value = g := by
    rintro c ⟨member, hm, hflows⟩
    simp only [ensureMember, hm]
    exact connect_of_flows hflows
  cases t with
  | instanceOf c | classObject c => exact hclass c h
  | moduleObject m =>
    simp only [writeTo]
    split
    · next node hnode => exact connect_of_flows (h node hnode)
    · rfl
  | _ => rfl

theorem takeUp_of_taken (changed : Bool) (h : g.Taken c offer) :
    takeUp c (g, changed) offer = (g, changed) := by
  unfold Taken at h
  split at h
  · exact absurd h not_false
  · next node hm =>
    simp only [takeUp, hm]
    split
    · next hjoin =>
      rcases h with h | h | ⟨info, hc, hlinked⟩
      · exact absurd h hjoin.1
      · exact absurd h hjoin.2
      · simp only [link, hc, if_pos hlinked]
    · rfl
  · next node earlier hm =>
    simp only [takeUp, hm]
    split
    · next hbetter =>
      rcases h with h | h
      · exact absurd hbetter.1 (Nat.not_lt_of_le h)
      · exact absurd h hbetter.2
    · rfl

theorem foldl_of_forall_fixed {α : Type} {step : β → α → β} {as : List α} {b : β}
    (h : ∀ a ∈ as, step b a = b) : as.foldl step b = b := by
  induction as with
  | nil => rfl
  | cons a as ih =>
    rw [foldl_cons, h a mem_cons_self]
    exact ih fun a ha => h a (mem_cons_of_mem _ ha)

theorem foldl_keeps {α : Type} {step : Graph → α → Graph} (view : Graph → β)
    (h : ∀ g a, view (step g a) = view g) (as : List α) (g : Graph) :
    view (as.foldl step g) = view g := by
  induction as generalizing g with
  | nil => rfl
  | cons a as ih => rw [foldl_cons, ih, h]

/-- Subscribing to parents leaves the work list and the counts alone. -/
theorem subscribeToParents_keeps (view : Graph → β)
    (h : ∀ g dependent source, view (g.subscribe dependent source) = view g) (c : ClassId) :
    view (g.subscribeToParents c) = view g := by
  unfold subscribeToParents
  split
  · rfl
  · refine foldl_keeps view (fun g parent => ?_) _ g
    split
    · exact h g _ _
    · rfl

/-- **Working out a node that is in step** changes at most who is told about what. -/
theorem InStep.recompute (h : g.InStep id r) (hr : g.rule? id = some r) :
    (g.recompute id).2 = false ∧ Same g (g.recompute id).1 ∧
      (g.recompute id).1.worklist = g.worklist ∧ (g.recompute id).1.growths = g.growths := by
  have htick : Same g g.tick := .counts
  have hstep : g.tick.InStep id r := h.of_same htick
  by_cases hfinds : r.Finds
  · rw [recompute_of_finds hr hfinds]
    rw [inStep_of_finds hfinds] at hstep
    rcases hf : g.tick.find? r with - | f
    · exact ⟨rfl, htick, rfl, rfl⟩
    · simp only [Option.elim_some]
      set k := f.watched.foldl (fun g source => g.subscribe id source) g.tick with hk
      have hsame : Same g.tick k := Same.foldl (fun g w => Same.subscribe g id w) _ _
      have hsub : f.types.isSubset (k.types id) = true := by
        rw [TypeSet.isSubset_iff, hsame.types]
        exact hstep f hf
      rw [grow, if_pos hsub]
      refine ⟨rfl, htick.trans hsame, ?_, ?_⟩
      · rw [hk, worklist_foldl_subscribe]
        rfl
      · have hgrowths : ∀ (g : Graph) source, (g.subscribe id source).growths = g.growths :=
          fun _ _ => rfl
        exact foldl_keeps Graph.growths hgrowths f.watched g.tick
  · cases r with
    | write object attr value =>
      rw [recompute_of_write hr]
      have hfixed : g.tick.write object attr value (g.line id) = g.tick :=
        foldl_of_forall_fixed fun t ht => writeTo_of_stored _ (hstep t ht)
      rw [hfixed]
      exact ⟨rfl, htick, rfl, rfl⟩
    | members c =>
      rw [recompute_of_members hr]
      have hparents := Same.subscribeToParents g.tick c
      have hfixed : (g.tick.offers c).foldl (takeUp c) (g.tick.subscribeToParents c, false) =
          (g.tick.subscribeToParents c, false) :=
        foldl_of_forall_fixed fun offer hoffer =>
          takeUp_of_taken false ((hstep.1 offer hoffer).of_same hparents)
      have hclosed : ¬ (((g.tick.bases c).any fun base =>
          (g.tick.types base).toList.any (g.tick.leavesOpen c)) &&
            !(g.tick.subscribeToParents c).anyBased c) = true := by
        intro hopens
        simp only [Bool.and_eq_true, any_eq_true, Bool.not_eq_true', hparents.anyBased]
          at hopens
        obtain ⟨⟨base, hbase, t, ht, hopen⟩, hany⟩ := hopens
        rw [hstep.2 base hbase t ht hopen] at hany
        cases hany
      simp only [mergeBases, hfixed, if_neg hclosed]
      refine ⟨trivial, htick.trans hparents, ?_, ?_⟩
      · exact subscribeToParents_keeps (g := g.tick) Graph.worklist (fun _ _ _ => rfl) c
      · exact subscribeToParents_keeps (g := g.tick) Graph.growths (fun _ _ _ => rfl) c
    | _ => exact absurd trivial hfinds

/-! ### A node that is worked out without effect is in step -/

theorem size_connect (g : Graph) (id input : NodeId) :
    (g.connect id input).nodes.size = g.nodes.size := by
  rcases connect_cases g id input with heq | ⟨inputs, -, -, -, heq⟩
  · rw [heq]
  · rw [heq, (Same.schedule _ _).size, (Same.subscribe _ _ _).size, size_setRule]

theorem flows_of_same_connect (hs : Same g (g.connect id input)) : g.Flows id input := by
  intro inputs hr
  by_contra hno
  have heq : g.connect id input =
      ((g.setRule id (.plain (inputs ++ [input]))).subscribe id input).schedule id := by
    unfold connect
    rw [hr]
    exact if_neg hno
  have hrule := congrFun hs.rule? id
  rw [heq, (Same.schedule _ _).rule?, (Same.subscribe _ _ _).rule?, rule?_setRule, if_pos rfl, hr]
    at hrule
  simp at hrule

theorem Gain.not_same (h : Gain g g') : ¬ Same g g' := by
  intro hs
  obtain ⟨fact, hno, hyes⟩ := h
  exact hno ((Fact.holds_of_same hs).1 hyes)

/-- A step of a run that changes nothing in the end changes nothing. -/
theorem Moves.same_of_same {g'' : Graph} (hfirst : Moves D g g') (hrest : Extends g' g'')
    (hs : Same g g'') : Same g g' := by
  rcases hfirst.progress with ⟨hsame, -⟩ | hgain
  · exact hsame
  · exact absurd hs (hgain.of_extends hrest).not_same

theorem stored_of_same_writeTo (hs : Same g (writeTo attr value line g t)) :
    g.Stored attr value t := by
  have hclass : ∀ c, Same g ((g.ensureMember c attr line).2.connect
      (g.ensureMember c attr line).1 value) →
      ∃ member, g.member? c attr = some member ∧ g.Flows member.node value := by
    intro c hs
    rcases hm : g.member? c attr with - | member
    · -- the member would have got a node of its own
      simp only [ensureMember, hm] at hs
      have hsize := hs.size
      rw [size_connect, (Same.touchClass _ _).size] at hsize
      have hlt : g.nodes.size < (g.push (.plain []) line).2.nodes.size :=
        hasNode_push_next g (.plain []) line
      exact absurd hsize (ne_of_gt hlt)
    · simp only [ensureMember, hm] at hs
      exact ⟨member, rfl, flows_of_same_connect hs⟩
  cases t with
  | instanceOf c | classObject c => exact hclass c hs
  | moduleObject m =>
    intro node hnode
    simp only [writeTo, hnode] at hs
    exact flows_of_same_connect hs
  | _ => trivial

theorem stored_of_same_write {object : NodeId} (hv : g.Valid)
    (hr : g.rule? id = some (.write object attr value))
    (hs : Same g (g.write object attr value line)) :
    ∀ t ∈ g.types object, g.Stored attr value t := by
  have hrun : ∀ (ts : List Ty) (k : Graph), k.Valid → Same g k → (∀ t ∈ ts, g.HasType t) →
      Same g (ts.foldl (writeTo attr value line) k) → ∀ t ∈ ts, g.Stored attr value t := by
    intro ts
    induction ts with
    | nil => exact fun _ _ _ _ _ t ht => absurd ht not_mem_nil
    | cons t ts ih =>
      intro k hkv hk hT hend
      have hkr : k.rule? id = some (.write object attr value) := by
        rw [hk.rule?]
        exact hr
      have hsteps : ∀ u ∈ t :: ts, ∀ k', Moves nobody k k' →
          Moves nobody k' (writeTo attr value line k' u) := by
        intro u hu k' hk'
        have hext : Extends k k' := hk'.extends
        refine moves_writeTo line (hext.hasNode (hkv.values id object attr value hkr))
          (hext.hasType ?_) ⟨id, object, value, hext.write hkr⟩
        exact (hT u hu).mono (by rw [hk.classes]) (by rw [hk.functions]) (by rw [hk.modules])
      have hfirst : Moves nobody k (writeTo attr value line k t) :=
        hsteps t mem_cons_self k .refl
      have hrest : Moves nobody (writeTo attr value line k t)
          (ts.foldl (writeTo attr value line) (writeTo attr value line k t)) :=
        Moves.foldl fun u hu k' hk' =>
          hsteps u (mem_cons_of_mem _ hu) k' (hfirst.trans hk')
      have hsame : Same k (writeTo attr value line k t) :=
        hfirst.same_of_same hrest.extends (hk.symm.trans hend)
      intro u hu
      rcases mem_cons.1 hu with rfl | hu
      · exact (stored_of_same_writeTo hsame).of_same hk.symm
      · exact ih _ (hfirst.valid hkv) (hk.trans hsame) (fun u hu => hT u (mem_cons_of_mem _ hu))
          hend u hu
  intro t ht
  exact hrun _ g hv (.refl g) (fun t ht => hv.types object t ht) hs t ht

theorem taken_of_same_takeUp (changed : Bool) (hc : g.class? c = some info)
    (hposition : offer.position < info.bases.length) (hs : Same g (takeUp c (g, changed) offer).1) :
    g.Taken c offer := by
  unfold Taken
  split
  · next hm =>
    simp only [takeUp, hm] at hs
    refine absurd hs (Gain.not_same (.setMember hc hposition fun old hold => ?_))
    rw [hm] at hold
    cases hold
  · next node hm =>
    by_contra hno
    simp only [not_or, not_exists, not_and] at hno
    obtain ⟨hne, hinit, hlinked⟩ := hno
    simp only [takeUp, hm, if_pos (And.intro hne hinit), link, hc, if_neg (hlinked info hc)] at hs
    have hclasses : ∀ k : Graph, ∀ a b, (k.connect a b).classes = k.classes := by
      intro k a b
      rcases connect_cases k a b with heq | ⟨inputs, -, -, -, heq⟩
      · rw [heq]
      · rw [heq]
        exact (Same.schedule _ _).classes
    have hclass := congrFun hs.class? c
    rw [class?, hclasses, hclasses, ← class?, class?_modifyClass, if_pos rfl, hc] at hclass
    have hlink := congrArg (fun o : Option ClassInfo => o.map fun i => i.linked.length) hclass
    simp at hlink
  · next node earlier hm =>
    by_contra hno
    simp only [not_or, not_le] at hno
    simp only [takeUp, hm, if_pos hno] at hs
    refine absurd hs (Gain.not_same (.setMember hc hposition fun old hold => ?_))
    rw [hm] at hold
    cases hold
    exact Nat.succ_lt_succ hno.1

theorem taken_of_same_takeUp_all {offers : List Offer} (changed : Bool) (hv : g.Valid)
    (hc : g.class? c = some info) (hoffers : ∀ offer ∈ offers, g.Offered info offer)
    (hs : Same g (offers.foldl (takeUp c) (g, changed)).1) : ∀ offer ∈ offers, g.Taken c offer := by
  induction offers generalizing g changed with
  | nil => exact fun offer h => absurd h not_mem_nil
  | cons offer offers ih =>
    have hfirst := (moves_takeUp changed hv hc (hoffers offer mem_cons_self)).2.2
    have htaken := taken_of_same_takeUp changed hc
      (hoffers offer mem_cons_self).position
    rw [foldl_cons] at hs
    generalize takeUp c (g, changed) offer = state at hfirst hs htaken
    obtain ⟨k, changed'⟩ := state
    have hext := hfirst.extends
    have hkv := hfirst.valid hv
    obtain ⟨info', hc', hinfo⟩ := hext.classes c info hc
    have hrest := (moves_takeUp_all changed' hkv hc' fun o ho =>
      (hoffers o (mem_cons_of_mem _ ho)).extends hext hinfo).2.2
    have hsame : Same g k := hfirst.same_of_same hrest.extends hs
    have hck : k.class? c = some info := by
      rw [hsame.class?]
      exact hc
    intro o ho
    rcases mem_cons.1 ho with rfl | ho
    · exact htaken hsame
    · refine (ih changed' hkv hck (fun o ho => ?_) (hsame.symm.trans hs) o ho).of_same hsame.symm
      exact (hoffers o (mem_cons_of_mem _ ho)).extends hext (.refl info)

/-- **A node that is worked out without effect is in step.** -/
theorem inStep_of_same_recompute (hv : g.Valid) (hr : g.rule? id = some r)
    (hs : Same g (g.recompute id).1) : g.InStep id r := by
  have htick : Same g g.tick := .counts
  have htv : g.tick.Valid := (moves_tick (D := nobody) g).valid hv
  suffices hstep : g.tick.InStep id r from hstep.of_same htick.symm
  have hrt : g.tick.rule? id = some r := hr
  by_cases hfinds : r.Finds
  · rw [inStep_of_finds hfinds]
    intro f hf t ht
    rw [recompute_of_finds hr hfinds, hf] at hs
    simp only [Option.elim_some] at hs
    set k := f.watched.foldl (fun g source => g.subscribe id source) g.tick
    have hsame : Same g.tick k := Same.foldl (fun g w => Same.subscribe g id w) _ _
    have hin : t ∈ (k.grow id f.types).1.types id := by
      unfold grow
      split
      · next hsub => exact TypeSet.isSubset_iff.1 hsub t ht
      · have hk : k.HasNode id := (hsame.hasNode id).2 (hasNode_of_rule? hrt)
        exact mem_types_putTypes.2 (.inr ⟨hk, rfl, ht⟩)
    rw [hs.types] at hin
    exact hin
  · cases r with
    | write object attr value =>
      rw [recompute_of_write hr] at hs
      exact stored_of_same_write htv hrt (htick.symm.trans hs)
    | members c =>
      rw [recompute_of_members hr] at hs
      obtain ⟨info, hc, -⟩ := (htv.owner id c).1 hrt
      have hparents := Same.subscribeToParents g.tick c
      have hpv := (moves_subscribeToParents (D := nobody) htv c).valid htv
      have hpx := (moves_subscribeToParents (D := nobody) htv c).extends
      have hpc : (g.tick.subscribeToParents c).class? c = some info := by
        rw [hparents.class?]
        exact hc
      have hoffered : ∀ offer ∈ g.tick.offers c, (g.tick.subscribeToParents c).Offered info offer :=
        fun offer hoffer => (mem_offers htv hc hoffer).extends hpx (.refl info)
      have htake := (moves_takeUp_all false hpv hpc hoffered).2.2
      have htaken := taken_of_same_takeUp_all false hpv hpc hoffered
      simp only [mergeBases] at hs
      generalize (g.tick.offers c).foldl (takeUp c) (g.tick.subscribeToParents c, false) = state
        at htake htaken hs
      obtain ⟨k, changed⟩ := state
      obtain ⟨info', hkc, hinfo⟩ := htake.extends.classes c info hpc
      simp only at hs
      split at hs
      · -- the class would have been opened
        next hopen =>
        exfalso
        have hclosed : info'.anyBased = false := by
          have hno := (Bool.and_eq_true _ _ ▸ hopen).2
          simp only [anyBased, hkc] at hno
          simpa using hno
        have hgain := Gain.after (hpx.trans htake.extends) (.openUp hkc hclosed)
        exact hgain.not_same (htick.symm.trans hs)
      · next hopen =>
        have hsame : Same g.tick k := htick.symm.trans hs
        refine ⟨fun offer hoffer => ?_, fun base hbase t ht hleaves => ?_⟩
        · exact (htaken (hparents.symm.trans hsame) offer hoffer).of_same hparents.symm
        · by_contra hany
          refine hopen (Bool.and_eq_true _ _ ▸ ⟨?_, ?_⟩)
          · exact any_eq_true.2 ⟨base, hbase, any_eq_true.2 ⟨t, ht, hleaves⟩⟩
          · rw [hsame.anyBased]
            simpa using hany
    | _ => exact absurd trivial hfinds

/-! ### Working everything out once more -/

theorem InStep.turn (rest : List NodeId) (h : g.InStep id r) (hr : g.rule? id = some r) :
    Same g (g.turn id rest) ∧ (g.turn id rest).growths = g.growths := by
  have hpop : Same g { g with worklist := rest } := .counts
  obtain ⟨hflag, hsame, -, hgrowths⟩ :=
    (h.of_same hpop).recompute (g := { g with worklist := rest }) hr
  simp only [Graph.turn, hflag, Bool.false_eq_true, if_false]
  exact ⟨hpop.trans hsame, hgrowths⟩

/-- As long as every node is in step, a run changes nothing. -/
theorem drain_same (hv : g.Valid) (h : ∀ id r, g.rule? id = some r → g.InStep id r)
    (fuel : Nat) : Same g (drain fuel g) ∧ (drain fuel g).growths = g.growths := by
  refine (drain_induction (P := fun k => k.Valid ∧ Same g k ∧ k.growths = g.growths)
    (fun k id rest hw hk => ?_) fuel ⟨hv, .refl g, rfl⟩).2
  obtain ⟨hkv, hsame, hgrowths⟩ := hk
  have hnode : k.HasNode id := hkv.worklist id (hw ▸ mem_cons_self)
  obtain ⟨n, hn⟩ := hasNode_iff.1 hnode
  have hr : k.rule? id = some n.rule := rule?_eq_some_iff.2 ⟨n, hn, rfl⟩
  have hstep : k.InStep id n.rule := (h id n.rule (hsame.rule? ▸ hr)).of_same hsame
  obtain ⟨hturn, hcount⟩ := hstep.turn rest hr
  exact ⟨hkv.turn hw, hsame.trans hturn, hcount.trans hgrowths⟩

/-- In a run that empties the work list and changes nothing, every node that waited was in step. -/
theorem inStep_of_same_drain (fuel : Nat) (hv : g.Valid) (hs : Same g (drain fuel g))
    (hempty : (drain fuel g).worklist = []) (hid : id ∈ g.worklist) (hr : g.rule? id = some r) :
    g.InStep id r := by
  induction fuel generalizing g with
  | zero =>
    rw [drain] at hempty
    rw [hempty] at hid
    exact absurd hid not_mem_nil
  | succ fuel ih =>
    rw [drain] at hs hempty
    split at hs
    · next hnil =>
      rw [hnil] at hid
      exact absurd hid not_mem_nil
    · next first rest hw =>
      rw [hw] at hid
      simp only [hw] at hempty
      have htv := hv.turn hw
      -- whatever a turn gains is still there in the end
      rcases turn_progress hv hw with ⟨hsame, hwork⟩ | hgain
      · rcases mem_cons.1 hid with rfl | hid
        · have hpop : Same g { g with worklist := rest } := .counts
          refine (inStep_of_same_recompute (hv.pop hw) hr ?_).of_same hpop.symm
          exact hpop.symm.trans (hsame.trans (same_turn g id rest).1.symm)
        · refine (ih htv (hsame.symm.trans hs) hempty ?_ ?_).of_same hsame.symm
          · rw [hwork]
            exact hid
          · rw [hsame.rule?]
            exact hr
      · exact absurd hs (Gain.not_same (hgain.of_extends (drain_extends fuel htv)))

/-- The graph with all its nodes on the work list. -/
def allScheduled (g : Graph) : Graph :=
  (List.range g.nodes.size).foldl (fun g i => g.schedule ⟨i⟩) g

theorem allScheduled_eq (g : Graph) : g.allScheduled =
      { g with worklist := ((List.range g.nodes.size).map NodeId.mk).foldl enqueue g.worklist } := by
  rw [← foldl_schedule_eq, foldl_map]
  rfl

theorem Same.allScheduled (g : Graph) : Same g g.allScheduled :=
  Same.foldl (fun g i => Same.schedule g ⟨i⟩) _ g

theorem mem_worklist_allScheduled (hid : g.HasNode id) : id ∈ g.allScheduled.worklist := by
  rw [allScheduled_eq]
  exact mem_foldl_enqueue.2 (.inr (mem_map.2 ⟨id.index, mem_range.2 hid, rfl⟩))

theorem Valid.allScheduled (hv : g.Valid) : g.allScheduled.Valid := by
  rw [allScheduled_eq]
  refine hv.withWorklist (fun id hid => ?_) (nodup_foldl_enqueue hv.nodup)
  rcases mem_foldl_enqueue.1 hid with hid | hid
  · exact hv.worklist id hid
  · obtain ⟨i, hi, rfl⟩ := mem_map.1 hid
    exact mem_range.1 hi

theorem Extends.allScheduled (g : Graph) : Extends g g.allScheduled :=
  .of_same (.allScheduled g) fun b d hd => by rw [allScheduled_eq]; exact hd

theorem Frame.allScheduled (g : Graph) : Frame g g.allScheduled D := by
  refine .of_same (.allScheduled g) (Extends.allScheduled g).dependents fun id hid => ?_
  rw [allScheduled_eq]
  exact mem_foldl_enqueue.2 (.inl hid)

theorem Sound.prepared_allScheduled (h : g.Sound) : Prepared g g.allScheduled :=
  h.prepared h.valid.allScheduled (.allScheduled g) (.of_extends (.allScheduled g))

/-- **Working everything out once more changes nothing exactly if every node is in step.** -/
theorem repropagate_same_iff (h : g.Sound) : (g.repropagate.1 = 0 ∧ Same g g.repropagate.2) ↔
      ∀ id r, g.rule? id = some r → g.InStep id r := by
  have hv := h.valid.allScheduled
  have hall := Same.allScheduled g
  have hgrowths : g.allScheduled.growths = g.growths := by
    rw [allScheduled_eq]
  have hresult : g.repropagate =
      (g.allScheduled.propagate.growths - g.growths, g.allScheduled.propagate) := rfl
  rw [hresult]
  constructor
  · rintro ⟨-, hs⟩ id r hr
    have hr' : g.allScheduled.rule? id = some r := by
      rw [hall.rule?]
      exact hr
    refine (inStep_of_same_drain _ hv (hall.symm.trans hs) (propagate_worklist hv) ?_ hr').of_same
      hall.symm
    exact mem_worklist_allScheduled (hasNode_of_rule? hr)
  · intro hstep
    have hstep' : ∀ id r, g.allScheduled.rule? id = some r → g.allScheduled.InStep id r :=
      fun id r hr => (hstep id r (hall.rule? ▸ hr)).of_same hall
    obtain ⟨hsame, hcount⟩ := drain_same hv hstep' g.allScheduled.budget
    refine ⟨?_, hall.trans hsame⟩
    show (drain g.allScheduled.budget g.allScheduled).growths - g.growths = 0
    rw [hcount, hgrowths, Nat.sub_self]

end FlowTyping.Graph
