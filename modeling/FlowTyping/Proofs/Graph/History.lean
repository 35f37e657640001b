/-
What a class has, seen from the last time that its node was worked out.

A sequence of requests leaves a history: the graphs in which a node was about to be worked out
(`Request.allMoments`).  Between requests nobody waits who keeps a table, so every class has had its
last merge.  Since then nothing that it reads has changed, or it would have been told and would wait
again, and its own table may only have got members of its own.  That is `InTouch`, and
`Arises.lastMerge` says that it holds of every class.  The proof is one invariant (`Tracked`), with
a step lemma for changes and one for turns.
-/
import FlowTyping.Proofs.Graph.Merge

namespace FlowTyping.Graph

open List

variable {again : Prop} {g g' k : Graph} {c : ClassId} {r : Request} {node : NodeId}
  {rest : List NodeId} {history : List Graph} {id : NodeId} {info : ClassInfo} {rs : List Request}

/-! ### Histories -/

/-- The graphs in which a node is about to be worked out while the work list is emptied. -/
def drainMoments : Nat → Graph → List Graph
  | 0, _ => []
  | fuel + 1, g =>
    match g.worklist with
    | [] => []
    | id :: rest => g :: drainMoments fuel (g.turn id rest)

def Request.moments (g : Graph) (r : Request) : List Graph :=
  if r.drains g then drainMoments (r.change g).budget (r.change g) else []

def Request.allMoments (g : Graph) : List Request → List Graph
  | [] => []
  | r :: rs => r.moments g ++ allMoments (r.run g) rs

def Request.basesOf? : Request → Option ClassId
  | .setBases c _ => some c
  | _ => none

def Request.declares? : Request → Option ClassId
  | .addOwnMember c _ _ => some c
  | _ => none

/-- Requests that give bases only to classes without any and, unless members may be declared
`again`, that declare members only in such classes. -/
structure Request.Fits (again : Prop) (g : Graph) (r : Request) : Prop where
  bases : ∀ c, r.basesOf? = some c → g.bases c = []
  declared : ∀ c, r.declares? = some c → again ∨ g.bases c = []

/-- The graphs that fitting requests lead to, with their histories. -/
inductive Arises (again : Prop) : List Graph → Graph → Prop
  | empty (unboundAsNone : Bool) : Arises again [] (.empty unboundAsNone)
  | request {history : List Graph} {g : Graph} {r : Request} (h : Arises again history g)
      (hr : r.Given g) (hfits : r.Fits again g) : Arises again (history ++ r.moments g) (r.run g)

theorem Arises.reachable (h : Arises again history g) : Reachable g := by
  induction h with
  | empty u => exact .empty u
  | request _ hr _ ih => exact ih.request hr

theorem Arises.keeps {P : List Graph → Graph → Prop} (hempty : ∀ u, P [] (.empty u))
    (hchange : ∀ history g (r : Request), g.Sound → r.Given g → r.Fits again g → P history g →
      P history (r.change g))
    (hturn : ∀ history (g : Graph) id rest, g.Valid → g.worklist = id :: rest → P history g →
      P (history ++ [g]) (g.turn id rest))
    (h : Arises again history g) : P history g := by
  have hdrain : ∀ fuel history g, g.Valid → P history g →
      P (history ++ drainMoments fuel g) (drain fuel g) := by
    intro fuel
    induction fuel with
    | zero =>
      intro history g _ h
      rw [drainMoments, append_nil]
      exact h
    | succ fuel ih =>
      intro history g hv h
      rcases hw : g.worklist with - | ⟨id, rest⟩
      · simp only [drainMoments, drain, hw, append_nil]
        exact h
      · simp only [drainMoments, drain, hw]
        have hrest := ih _ _ (hv.turn hw) (hturn history g id rest hv hw h)
        rwa [append_assoc] at hrest
  induction h with
  | empty u => exact hempty u
  | @request history g r harises hr hfits ih =>
    have hsound := harises.reachable.sound
    have hchanged := hchange history g r hsound hr hfits ih
    rw [Request.run_eq, Request.moments]
    split
    · exact hdrain _ _ _ (hsound.prepared_change hr).valid hchanged
    · rw [append_nil]
      exact hchanged

/-! ### What a change does to classes -/

theorem bases_change (h : g.Sound) (hr : r.Given g) (hb : r.basesOf? ≠ some c) :
    (r.change g).bases c = g.bases c := by
  have hrevises := revises_change h hr c
  rw [bases, bases]
  generalize g.class? c = old at hrevises ⊢
  generalize (r.change g).class? c = new at hrevises ⊢
  cases hrevises with
  | based => exact absurd rfl hb
  | declared _ _ hkeeps => exact hkeeps.bases
  | _ => rfl

/-- Whoever changes a set or a table while it changes a graph tells those who have heard of it. -/
theorem Sound.frame_change (h : g.Sound) (hr : r.Given g) : Frame g (r.change g) nobody := by
  have hstatic : ∀ k : Graph, k.nodes = g.nodes → k.classes = g.classes →
      (∀ f : FunctionId, f.index < g.functions.size → k.function? f = g.function? f) →
      k.worklist = g.worklist → k.unboundAsNone = g.unboundAsNone → Frame g k nobody := by
    intro k hnodes hclasses hfunctions hwork hunbound
    obtain ⟨htypes, hrule, hdep⟩ := views_congr hnodes
    obtain ⟨hclass, hmember, -, hany⟩ := tables_congr hclasses
    refine ⟨fun b hb => hwork ▸ hb, fun b d hd => hdep ▸ hd, fun b t ht => htypes ▸ ht,
      fun b q hq => .inr (hrule ▸ hq), fun b => .inl (congrFun htypes b), fun d _ => ?_,
      fun d _ _ => .inl ⟨congrFun hmember d, congrFun hany d⟩, hfunctions, hunbound⟩
    rw [classNodes, classNodes, hclass]
  cases r with
  | add rule line => exact .push g rule line
  | constant t =>
    show Frame g (g.constant t).2 nobody
    rcases constant_cases g t with ⟨id, -, heq⟩ | heq
    · rw [heq]
      exact .refl g
    · rw [heq]
      exact .withConstant g t
  | addToMerge id values =>
    simp only [Request.change]
    split
    · exact .incoming h.valid (hasNode_of_sources hr.2)
    · exact .refl g
  | addInput id input => exact (moves_connect hr.2 id).frame
  | seed id types =>
    simp only [Request.change, withTypes]
    split
    · exact .refl g
    · exact (Frame.putTypes g id types).pay
  | addClass name line => exact .withClass g name line
  | setBases c bases =>
    obtain ⟨info, hc⟩ := class?_of_lt hr.1
    simp only [Request.change, hc, Option.map_some, Option.getD_some]
    exact .withBases g c info.node bases
  | addOwnMember c name node => exact .withOwnMember h.valid hr.2 c name
  | addFunction info =>
    refine hstatic _ rfl rfl (fun f hf => ?_) rfl rfl
    have hpush : (g.addFunction info).2.function? f =
        if f.index = g.functions.size then some info else g.function? f := Array.getElem?_push
    exact hpush.trans (if_neg (ne_of_lt hf))
  | repropagate => exact .allScheduled g
  | _ => exact hstatic _ rfl rfl (fun _ _ => rfl) rfl rfl

/-! ### What a turn does to classes -/

/-- **The turn of a node that keeps a table is a merge.** -/
theorem merged_turn (hv : g.Valid) (hw : g.worklist = node :: rest)
    (hr : g.rule? node = some (.members c)) : Merged c g (g.turn node rest) := by
  obtain ⟨info, hc, -⟩ := (hv.owner node c).1 hr
  have hrun := recompute_of_members (g := { g with worklist := rest }) hr
  have htick : ({ g with worklist := rest } : Graph).tick.Valid :=
    (moves_tick (D := nobody) _).valid (hv.pop hw)
  have hmerge := merged_mergeBases (c := c) htick hc
  rw [← hrun] at hmerge
  obtain ⟨hsame, hdep⟩ := same_turn g node rest
  have h := hmerge.of_same hsame fun id d hd => by rw [hdep]; exact hd
  exact { h with }

/-- **What a turn does to classes**: it merges the bases of one class, or it only adds own members.
-/
theorem turn_cases (hv : g.Valid) (hw : g.worklist = id :: rest) :
    (∃ c, g.rule? id = some (.members c) ∧ Merged c g (g.turn id rest)) ∨
      Additions g (g.turn id rest) := by
  rcases hr : g.rule? id with - | r
  · right
    have hrun := recompute_of_none (g := { g with worklist := rest }) hr
    have hsame := (same_turn g id rest).1
    rw [hrun] at hsame
    exact .of_classes hsame.classes
  by_cases hfinds : r.Finds
  · exact .inr (.of_classes (turn_finds hr hfinds rest).2.1)
  · cases r with
    | write object attr value =>
      right
      have hrun := recompute_of_write (g := { g with worklist := rest }) hr
      have hsame := (same_turn g id rest).1
      rw [hrun] at hsame
      have hwrite := additions_write ({ g with worklist := rest } : Graph).tick object attr value
        (g.line id)
      have h := hwrite.trans (.of_classes hsame.classes)
      exact { h with }
    | members c => exact .inl ⟨c, rfl, merged_turn hv hw hr⟩
    | _ => exact absurd trivial hfinds

theorem Frame.mono {D E : NodeId → Prop} (h : Frame g g' D) (hD : ∀ d, D d → E d) : Frame g g' E :=
  h.imp fun b => .imp_left (hD b)

/-- A turn tells everybody who has heard of what it changes. -/
theorem Valid.frame_turn (hv : g.Valid) (hw : g.worklist = id :: rest) :
    Frame { g with worklist := rest } (g.turn id rest) nobody := by
  have hframe := (recompute_moves (hv.pop hw) id).2.frame
  unfold Graph.turn
  simp only
  split
  · exact (hframe.mono fun d hd => .inr hd.2).pay
  · next hflag => exact hframe.mono fun d hd => absurd hd.1 hflag

/-! ### Growing tables -/

/-- What happens to the table of a class while its node is not worked out: entries stay, or are
declared anew if that may be, and new ones are the class's own. -/
structure Grows (again : Prop) (c : ClassId) (g g' : Graph) : Prop where
  bases : g'.bases c = g.bases c
  anyBased : g'.anyBased c = g.anyBased c
  linked : ∀ a b, g.Linked c a b → g'.Linked c a b
  kept : ∀ name m, g.member? c name = some m → g'.member? c name = some m ∨
    ((again ∨ g.bases c = []) ∧ ∃ node, g'.member? c name = some ⟨node, .own⟩)
  added : ∀ name, g.member? c name = none →
    g'.member? c name = none ∨ ∃ node, g'.member? c name = some ⟨node, .own⟩

namespace Grows

variable {info : ClassInfo}

theorem of_additions (h : Additions g g') (c : ClassId) : Grows again c g g' := by
  refine ⟨congrFun h.bases c, congrFun h.anyBased c, fun a b => (h.linked c a b).2,
    fun name m hm => ?_, fun name hnone => ?_⟩
  · rcases h.entries c name with hsame | ⟨hnone, -⟩
    · exact .inl (hsame.trans hm)
    · rw [hm] at hnone
      cases hnone
  · rcases h.entries c name with hsame | ⟨-, hown⟩
    · exact .inl (hsame.trans hnone)
    · exact .inr hown

theorem of_class? (h : g'.class? c = g.class? c) : Grows again c g g' := by
  refine ⟨?_, ?_, fun a b hl => hl.of_class? h, fun name m hm => .inl ?_, fun name hnone => .inl ?_⟩
  · rw [Graph.bases, Graph.bases, h]
  · rw [Graph.anyBased, Graph.anyBased, h]
  · rw [member?, h]
    exact hm
  · rw [member?, h]
    exact hnone

theorem refl (c : ClassId) (g : Graph) : Grows again c g g := of_class? rfl

theorem trans {g'' : Graph} (h : Grows again c g g') (h' : Grows again c g' g'') :
    Grows again c g g'' := by
  refine ⟨h'.bases.trans h.bases, h'.anyBased.trans h.anyBased,
    fun a b hl => h'.linked a b (h.linked a b hl), fun name m hm => ?_, fun name hnone => ?_⟩
  · rcases h.kept name m hm with hm' | ⟨hmay, n, hn⟩
    · rw [← h.bases]
      exact h'.kept name m hm'
    · rcases h'.kept name _ hn with hn' | ⟨-, hown⟩
      · exact .inr ⟨hmay, n, hn'⟩
      · exact .inr ⟨hmay, hown⟩
  · rcases h.added name hnone with hnone' | ⟨n, hn⟩
    · exact h'.added name hnone'
    · rcases h'.kept name _ hn with hn' | ⟨-, hown⟩
      · exact .inr ⟨n, hn'⟩
      · exact .inr hown

theorem withOwnMember {name : String} (hmay : again ∨ g.bases c = [])
    (hc : g.class? c = some info) : Grows again c g (g.withOwnMember c name node) := by
  obtain ⟨info', hc', hkeeps, -⟩ := (alters_withOwnMember g c name node).changed info hc
  refine ⟨?_, ?_, fun a b hl => ⟨info', hc', ?_⟩, fun n m hm => ?_, fun n hnone => ?_⟩
  · rw [Graph.bases, Graph.bases, hc, hc']
    exact hkeeps.bases
  · rw [Graph.anyBased, Graph.anyBased, hc, hc']
    exact hkeeps.anyBased
  · obtain ⟨_, hinfo, hl⟩ := hl
    rw [hc] at hinfo
    cases hinfo
    exact hkeeps.linked _ hl
  · rw [member?_withOwnMember hc]
    split
    · exact .inr ⟨hmay, node, rfl⟩
    · exact .inl hm
  · rw [member?_withOwnMember hc]
    split
    · exact .inr ⟨node, rfl⟩
    · exact .inl hnone

theorem change (h : g.Sound) (hr : r.Given g) (hfits : r.Fits again g) (hc : g.class? c = some info)
    (hb : r.basesOf? ≠ some c) : Grows again c g (r.change g) := by
  have hrevises := revises_change h hr c
  rw [hc] at hrevises
  generalize hnew : (r.change g).class? c = new at hrevises
  cases hrevises with
  | kept => exact of_class? (hnew.trans hc.symm)
  | based => exact absurd rfl hb
  | declared name node => exact withOwnMember (hfits.declared c rfl) hc

theorem turn {id : NodeId} (hv : g.Valid) (hw : g.worklist = id :: rest)
    (hc : g.class? c = some info) (hne : info.node ≠ id) : Grows again c g (g.turn id rest) := by
  rcases turn_cases hv hw with ⟨d, hr, hmerged⟩ | hadds
  · obtain ⟨dinfo, hd, hid⟩ := (hv.owner id d).1 hr
    apply of_class?
    apply hmerged.others
    rintro rfl
    rw [hc] at hd
    cases hd
    exact hne hid
  · exact of_additions hadds c

end Grows

/-! ### Classes in touch with their bases -/

/-- A class has not lost touch since a turn of its node: the sets of its bases and the tables of its
parents are what they were, the class still hears of them, and its own table has only grown. -/
structure InTouch (again : Prop) (c : ClassId) (node : NodeId) (rest : List NodeId) (m g : Graph) :
    Prop where
  sets : ∀ b ∈ m.bases c, g.types b = m.types b
  tables : ∀ p ∈ m.parents c, p ≠ c → g.member? p = m.member? p ∧ g.anyBased p = m.anyBased p
  heard : ∀ p ∈ m.parents c, p ≠ c → ∀ info, g.class? p = some info → node ∈ g.dependents info.node
  grows : Grows again c (m.turn node rest) g

namespace InTouch

variable {m : Graph}

theorem bases (h : InTouch again c node rest m g) (hmerged : Merged c m (m.turn node rest)) :
    g.bases c = m.bases c := h.grows.bases.trans (congrFun hmerged.bases c)

theorem start (hv : m.Valid) (hw : m.worklist = node :: rest)
    (hr : m.rule? node = some (.members c)) : InTouch again c node rest m (m.turn node rest) := by
  have hmerged := merged_turn hv hw hr
  obtain ⟨info, hc, hnode⟩ := (hv.owner node c).1 hr
  refine ⟨fun b _ => congrFun hmerged.types b, fun p _ hne => ?_, fun p hp hne pinfo hpinfo => ?_, .refl c _⟩
  · have hsame := hmerged.others p hne.symm
    refine ⟨funext fun name => ?_, ?_⟩
    · rw [member?, member?, hsame]
    · rw [anyBased, anyBased, hsame]
  · rw [hmerged.others p hne.symm] at hpinfo
    exact hnode ▸ hmerged.heard info hc p hp hne pinfo hpinfo

/-- **A class that does not wait after a step has not lost touch**: it would have been told. -/
theorem step {info : ClassInfo} (h : InTouch again c node rest m g) (hv : g.Valid)
    (hmerged : Merged c m (m.turn node rest)) (hc : g.class? c = some info) (hnode : info.node = node)
    (hframe : Frame g g' nobody) (hquiet : node ∉ g'.worklist) (hgrows : Grows again c g g') :
    InTouch again c node rest m g' := by
  have hbases : info.bases = m.bases c := by
    rw [← h.bases hmerged, Graph.bases, hc]
  have hlt : ∀ p ∈ m.parents c, p.index < g.classes.size := by
    intro p hp
    obtain ⟨b, hb, ht⟩ := mem_parents.1 hp
    rw [← h.sets b hb] at ht
    exact hv.types b _ ht
  refine ⟨fun b hb => ?_, fun p hp hne => ?_, fun p hp hne pinfo hpinfo => ?_, h.grows.trans hgrows⟩
  · rw [← h.sets b hb]
    refine (hframe.types b).resolve_right fun htold => hquiet ?_
    have hhears := (hv.classes c info hc).bases b (hbases ▸ hb)
    exact hnode ▸ (htold.resolve_left not_false) info.node hhears
  · obtain ⟨pinfo, hpinfo⟩ := class?_of_lt (hlt p hp)
    obtain ⟨hmembers, hany⟩ := h.tables p hp hne
    rw [← hmembers, ← hany]
    refine (hframe.tables p pinfo hpinfo).resolve_right fun htold => hquiet ?_
    exact (htold.resolve_left not_false) node (h.heard p hp hne pinfo hpinfo)
  · obtain ⟨pinfo', hpinfo'⟩ := class?_of_lt (hlt p hp)
    have hsame := hframe.classNodes p (hlt p hp)
    rw [classNodes_eq hpinfo, classNodes_eq hpinfo', List.cons.injEq] at hsame
    rw [hsame.1]
    exact hframe.dependents _ _ (h.heard p hp hne pinfo' hpinfo')

end InTouch

/-- A class was merged last at some moment of a history, and has not lost touch since. -/
def LastMerge (again : Prop) (history : List Graph) (g : Graph) (c : ClassId) (node : NodeId) : Prop :=
  ∃ before m after rest, history = before ++ m :: after ∧ m.Valid ∧ m.worklist = node :: rest ∧
    m.rule? node = some (.members c) ∧ (∀ k ∈ after, k.worklist.head? ≠ some node) ∧
    InTouch again c node rest m g

theorem LastMerge.step {later : List Graph} (h : LastMerge again history g c node) (hv : g.Valid)
    (hc : g.class? c = some info) (hnode : info.node = node) (hframe : Frame g g' nobody)
    (hquiet : node ∉ g'.worklist) (hgrows : Grows again c g g')
    (hlater : ∀ k ∈ later, k.worklist.head? ≠ some node) :
    LastMerge again (history ++ later) g' c node := by
  obtain ⟨before, m, after, rest, rfl, hmv, hw, hr, hafter, htouch⟩ := h
  refine ⟨before, m, after ++ later, rest, by simp, hmv, hw, hr, fun k hk => ?_,
    htouch.step hv (merged_turn hmv hw hr) hc hnode hframe hquiet hgrows⟩
  exact (mem_append.1 hk).elim (hafter k) (hlater k)

/-- Every class waits to be merged, or has had its last merge. -/
def Tracked (again : Prop) (history : List Graph) (g : Graph) : Prop :=
  ∀ c info, g.class? c = some info → info.node ∈ g.worklist ∨ LastMerge again history g c info.node

theorem Tracked.change (h : Tracked again history g) (hs : g.Sound) (hr : r.Given g)
    (hfits : r.Fits again g) : Tracked again history (r.change g) := by
  have hframe := hs.frame_change hr
  intro c info' hc'
  rcases hc : g.class? c with - | info
  · -- a new class waits from the start
    have hrevises := revises_change hs hr c
    rw [hc, hc'] at hrevises
    cases hrevises with
    | made name line => exact .inl ((mem_worklist_withClass g name line).2 (.inr rfl))
  have hlt : c.index < g.classes.size := (Array.getElem?_eq_some_iff.1 hc).1
  have hnode : info'.node = info.node := by
    have hnodes := hframe.classNodes c hlt
    rw [classNodes_eq hc', classNodes_eq hc, List.cons.injEq] at hnodes
    exact hnodes.1
  rw [hnode]
  by_cases hquiet : info.node ∈ (r.change g).worklist
  · exact .inl hquiet
  right
  have hbased : r.basesOf? ≠ some c := by
    intro hbased
    cases r with
    | setBases d bases =>
      cases hbased
      simp only [Request.change, hc, Option.map_some, Option.getD_some] at hquiet
      exact hquiet (mem_worklist_schedule.2 (.inr rfl))
    | _ => cases hbased
  have hlast := (h c info hc).resolve_left fun hwait => hquiet (hframe.worklist _ hwait)
  have hgrows := Grows.change hs hr hfits hc hbased
  have hstep := @hlast.step _ _ _ _ _ _ _ [] hs.valid hc rfl hframe hquiet hgrows (forall_mem_nil _)
  rwa [append_nil] at hstep

theorem Tracked.turn (h : Tracked again history g) (hv : g.Valid) (hw : g.worklist = id :: rest) :
    Tracked again (history ++ [g]) (g.turn id rest) := by
  have hframe := hv.frame_turn hw
  intro c info' hc'
  have hlt : c.index < g.classes.size := by
    have hcount : (g.turn id rest).classes.size = g.classes.size :=
      (turn_extends hv hw).classCount
    exact hcount ▸ (Array.getElem?_eq_some_iff.1 hc').1
  obtain ⟨info, hc⟩ := class?_of_lt hlt
  have hnode : info'.node = info.node := by
    have hnodes := hframe.classNodes c hlt
    rw [classNodes_eq hc', classNodes_eq (g := { g with worklist := rest }) hc, List.cons.injEq] at hnodes
    exact hnodes.1
  rw [hnode]
  by_cases hid : info.node = id
  · right
    have hr : g.rule? id = some (.members c) := (hv.owner id c).2 ⟨info, hc, hid⟩
    rw [hid]
    exact ⟨history, g, [], rest, rfl, hv, hw, hr, forall_mem_nil _, .start hv hw hr⟩
  by_cases hquiet : info.node ∈ (g.turn id rest).worklist
  · exact .inl hquiet
  right
  have hrest : info.node ∉ g.worklist := by
    rw [hw, mem_cons, not_or]
    exact ⟨hid, fun hwait => hquiet (hframe.worklist _ hwait)⟩
  have hlast := (h c info hc).resolve_left hrest
  -- taking the head off the work list changes nothing that the class reads
  have hpop : LastMerge again history { g with worklist := rest } c info.node := by
    obtain ⟨before, m, after, rest', hhistory, hmv, hmw, hr, hafter, htouch⟩ := hlast
    exact ⟨before, m, after, rest', hhistory, hmv, hmw, hr, hafter,
      htouch.sets, htouch.tables, htouch.heard, htouch.grows.trans (.of_class? rfl)⟩
  have hrest : Grows again c { g with worklist := rest } g := .of_class? rfl
  have hgrows := hrest.trans (.turn hv hw hc hid)
  refine hpop.step (hv.pop hw) hc rfl hframe hquiet hgrows fun k hk => ?_
  rw [mem_singleton.1 hk, hw]
  exact fun heq => hid (Option.some.inj heq).symm

theorem Arises.tracked (h : Arises again history g) : Tracked again history g := by
  refine h.keeps (fun u c info hc => ?_) (fun history g r hs hr hfits ih => ih.change hs hr hfits)
    (fun history g id rest hv hw ih => ih.turn hv hw)
  simp [class?, Graph.empty] at hc

/-- **Between requests every class has had its last merge** and has not lost touch since. -/
theorem Arises.lastMerge (h : Arises again history g) (hc : g.class? c = some info) :
    LastMerge again history g c info.node := by
  refine (h.tracked c info hc).resolve_left fun hwait => ?_
  -- only fresh constants wait, and they keep no table
  obtain ⟨t, -, hr, -⟩ := h.reachable.fresh _ hwait
  rw [(h.reachable.sound.valid.owner info.node c).2 ⟨info, hc, rfl⟩] at hr
  cases hr

/-! ### Sequences of requests -/

theorem bases_run (h : g.Sound) (hr : r.Given g) (hb : r.basesOf? ≠ some c) :
    (r.run g).bases c = g.bases c := by
  have hchange := bases_change h hr hb
  rw [Request.run_eq]
  split
  · have hext : Extends (r.change g) (r.change g).propagate :=
      drain_extends _ (h.prepared_change hr).valid
    rw [← hchange]
    rcases hc : (r.change g).class? c with - | info
    · have hnone : (r.change g).propagate.class? c = none := by
        rw [class?, Array.getElem?_eq_none_iff] at hc ⊢
        rw [hext.classCount]
        exact hc
      rw [bases, bases, hc, hnone]
    · obtain ⟨info', hc', hinfo⟩ := hext.classes c info hc
      rw [bases, bases, hc, hc']
      exact hinfo.bases
  · exact hchange

/-- **Requests that give bases at most once to each class** fit when their turn comes. -/
theorem Arises.runAll (h : Arises again history g) (hgiven : Request.AllGiven g rs)
    (honce : (rs.filterMap Request.basesOf?).Nodup)
    (horder : again ∨ rs.Pairwise fun r r' => ∀ c ∈ r.basesOf?, r'.declares? ≠ some c)
    (hbases : ∀ r ∈ rs, ∀ c, r.basesOf? = some c → g.bases c = [])
    (hdeclared : again ∨ ∀ r ∈ rs, ∀ c, r.declares? = some c → g.bases c = []) :
    Arises again (history ++ Request.allMoments g rs) (Request.runAll g rs) := by
  induction rs generalizing g history with
  | nil =>
    rw [Request.allMoments, append_nil]
    exact h
  | cons r rs ih =>
    have hsound := h.reachable.sound
    have hfits : r.Fits again g := by
      refine ⟨hbases r mem_cons_self, fun c hc => ?_⟩
      exact hdeclared.imp_right fun hfree => hfree r mem_cons_self c hc
    have honce' : (∀ c, r.basesOf? = some c → ∀ r' ∈ rs, r'.basesOf? ≠ some c) ∧
        (rs.filterMap Request.basesOf?).Nodup := by
      rw [filterMap_cons] at honce
      rcases hb : r.basesOf? with - | d
      · rw [hb] at honce
        exact ⟨fun c hc => absurd hc.symm (Option.some_ne_none c), honce⟩
      · simp only [hb, nodup_cons, mem_filterMap, not_exists, not_and] at honce
        refine ⟨fun c hc r' hr' => ?_, honce.2⟩
        cases hc
        exact honce.1 r' hr'
    have hkeep : ∀ c, r.basesOf? ≠ some c → g.bases c = [] → (r.run g).bases c = [] :=
      fun c hne hnone => (bases_run hsound hgiven.1 hne).trans hnone
    have hnext := ih (h.request hgiven.1 hfits) hgiven.2 honce'.2
      (horder.imp_right fun hpair => (pairwise_cons.1 hpair).2)
      (fun r' hr' c hc => hkeep c (fun hb => honce'.1 c hb r' hr' hc)
        (hbases r' (mem_cons_of_mem _ hr') c hc)) ?_
    · rw [append_assoc] at hnext
      exact hnext
    · rcases horder with ha | hpair
      · exact .inl ha
      · refine hdeclared.imp_right fun hfree r' hr' c hc => hkeep c (fun hb => ?_)
          (hfree r' (mem_cons_of_mem _ hr') c hc)
        exact (pairwise_cons.1 hpair).1 r' hr' c hb hc

theorem bases_empty (unboundAsNone : Bool) (c : ClassId) : (Graph.empty unboundAsNone).bases c = [] := by
  simp [bases, class?, Graph.empty]

theorem arises_runAll {unboundAsNone : Bool} (hgiven : Request.AllGiven (.empty unboundAsNone) rs)
    (honce : (rs.filterMap Request.basesOf?).Nodup)
    (horder : again ∨ rs.Pairwise fun r r' => ∀ c ∈ r.basesOf?, r'.declares? ≠ some c) :
    Arises again (Request.allMoments (.empty unboundAsNone) rs)
      (Request.runAll (.empty unboundAsNone) rs) :=
  (Arises.empty unboundAsNone).runAll hgiven honce horder (fun _ _ c _ => bases_empty _ c)
    (.inr fun _ _ c _ => bases_empty _ c)

end FlowTyping.Graph
