/-
When a class has the member of its first base.

An entry that is in the table already gives way only to an offer from an earlier position, and only
if that offers another node.  So a class can have a member that none of its bases has any more: if a
parent comes to have the name from another class, its position is the one that the entry was taken
from, and the entry stays (`first_base_can_lose`).

What decides is the table just before the last merge.  The class has the member of its first base if
the name was new then.  If not, an entry for another node must have been taken from a later
position, and an entry for the very node must not have met a different node at an earlier position
than its own; these conditions are exact (`first_base_wins_iff`).
-/
import FlowTyping.Proofs.Graph.History

namespace FlowTyping

open List

namespace Table

variable {κ α : Type} [DecidableEq κ]

theorem mem_keys_put {key k : κ} {a : α} {es : List (κ × α)} :
    k ∈ (put key a es).map Prod.fst ↔ k = key ∨ k ∈ es.map Prod.fst := by
  induction es with
  | nil => simp [put]
  | cons e es ih =>
    obtain ⟨l, b⟩ := e
    rw [put]
    split
    · next hl => simp [hl]
    · rw [map_cons, mem_cons, ih, map_cons, mem_cons, or_left_comm]

/-- A table names each key once, whatever is put into it. -/
theorem nodup_keys_insert {t : Table κ α} (h : t.keys.Nodup) (key : κ) (a : α) :
    (t.insert key a).keys.Nodup := by
  obtain ⟨es⟩ := t
  change (es.map Prod.fst).Nodup at h
  show ((put key a es).map Prod.fst).Nodup
  induction es with
  | nil => exact nodup_singleton key
  | cons e es ih =>
    obtain ⟨l, b⟩ := e
    rw [map_cons, nodup_cons] at h
    rw [put]
    split
    · exact nodup_cons.2 h
    · next hl =>
      refine nodup_cons.2 ⟨fun hmem => ?_, ih h.2⟩
      exact (mem_keys_put.1 hmem).elim hl h.1

theorem get?_eq_some_of_mem {t : Table κ α} {key : κ} {a : α} (h : t.keys.Nodup)
    (hmem : (key, a) ∈ t.entries) : t.get? key = some a := by
  obtain ⟨es⟩ := t
  change (es.map Prod.fst).Nodup at h
  change (key, a) ∈ es at hmem
  show find? key es = some a
  induction es with
  | nil => exact absurd hmem not_mem_nil
  | cons e es ih =>
    obtain ⟨l, b⟩ := e
    rw [map_cons, nodup_cons] at h
    rw [find?]
    rcases mem_cons.1 hmem with heq | hmem
    · cases heq
      rw [if_pos rfl]
    · rw [if_neg, ih h.2 hmem]
      rintro rfl
      exact h.1 (mem_map.2 ⟨_, hmem, rfl⟩)

end Table

namespace Graph

variable {again : Prop} {g g' : Graph} {c p : ClassId} {name : String} {r : Request}
  {history : List Graph} {o : Offer}

/-! ### Tables name each member once -/

/-- No member table has two entries of one name. -/
def Keyed (g : Graph) : Prop := ∀ c info, g.class? c = some info → info.members.keys.Nodup

namespace Keyed

variable (h : g.Keyed) {D : NodeId → Prop}
include h

theorem of_classes (hclasses : g'.classes = g.classes) : g'.Keyed := by
  intro c info hc
  rw [(tables_congr hclasses).1] at hc
  exact h c info hc

theorem modifyClass {f : ClassInfo → ClassInfo} (c : ClassId)
    (hf : ∀ info : ClassInfo, info.members.keys.Nodup → (f info).members.keys.Nodup) :
    (g.modifyClass c f).Keyed := by
  intro d info hd
  rw [class?_modifyClass] at hd
  split at hd
  · obtain ⟨old, hold, rfl⟩ := Option.map_eq_some_iff.1 hd
    exact hf old (h d old hold)
  · exact h d info hd

theorem setMember {member : Member} (c : ClassId) (name : String) :
    (g.setMember c name member).Keyed :=
  h.modifyClass c fun _ hinfo => Table.nodup_keys_insert hinfo name member

theorem move (m : Move D g g') : g'.Keyed := by
  cases m with
  | tally a b | subscribe hd s | grow hid hT hnew hD => exact h
  | connect hr hnew hin => exact h.of_classes (Same.schedule _ _).classes
  | @newMember c info name line hc hnone hattr =>
    refine Keyed.of_classes ?_ (Same.touchClass _ c).classes
    exact (h.of_classes (classes_push g _ line)).setMember c name
  | inherit hc hnode hposition hname hbetter hD => exact h.setMember _ _
  | link hc ha hb hnew | openUp hc hclosed hD => exact h.modifyClass _ fun _ hinfo => hinfo

theorem moves (m : Moves D g g') : g'.Keyed := by
  induction m with
  | refl => exact h
  | tail _ hstep ih => exact ih.move hstep

theorem turn {id : NodeId} {rest : List NodeId} (hv : g.Valid) (hw : g.worklist = id :: rest) :
    (g.turn id rest).Keyed := by
  have hrun := Keyed.moves (g := { g with worklist := rest }) h (recompute_moves (hv.pop hw) id).2
  exact hrun.of_classes (same_turn g id rest).1.classes

theorem withOwnMember {node : NodeId} (hv : g.Valid) (hnode : g.HasNode node) (c : ClassId)
    (name : String) : (g.withOwnMember c name node).Keyed :=
  ((h.setMember c name).moves (moves_joinReplaced (D := nobody) hv hnode c name)).of_classes
    (Same.touchClass _ c).classes

theorem change (hs : g.Sound) (hr : r.Given g) : (r.change g).Keyed := by
  intro c info hc
  have hrevises := revises_change hs hr c
  rw [hc] at hrevises
  generalize hold : g.class? c = old at hrevises
  cases hrevises with
  | kept => exact h c info hold
  | made => exact nodup_nil
  | based bases old => exact h c old hold
  | declared n node => exact h.withOwnMember hs.valid hr.2 c n c info hc

end Keyed

theorem Arises.keyed_history (h : Arises again history g) : g.Keyed ∧ ∀ k ∈ history, k.Keyed := by
  refine h.keeps (P := fun history g => g.Keyed ∧ ∀ k ∈ history, k.Keyed)
    (fun u => ⟨fun c info hc => ?_, ?_⟩) (fun _ g r hs hr _ ih => ⟨ih.1.change hs hr, ih.2⟩)
    (fun _ g id rest hv hw ih => ⟨ih.1.turn hv hw, fun k hk => ?_⟩)
  · simp [class?, Graph.empty] at hc
  · exact fun k hk => absurd hk not_mem_nil
  · rcases mem_append.1 hk with hk | hk
    · exact ih.2 k hk
    · exact mem_singleton.1 hk ▸ ih.1

/-! ### Offers in order -/

theorem pairwise_offers (g : Graph) (c : ClassId) :
    (g.offers c).Pairwise fun o o' => o.position ≤ o'.position := by
  have hposition : ∀ e : NodeId × Nat, ∀ o ∈ (g.types e.1).toList.flatMap (g.offersOf c e.2),
      o.position = e.2 := by
    intro e o ho
    obtain ⟨t, -, ho⟩ := mem_flatMap.1 ho
    exact (mem_offersOf.1 ho).1
  refine pairwise_flatMap.2 ⟨fun e _ => ?_, ?_⟩
  · refine pairwise_of_forall_mem_list fun o ho o' ho' => ?_
    rw [hposition e o ho, hposition e o' ho']
  · have hsorted : ((g.bases c).zipIdx.map Prod.snd).Pairwise (· < ·) := by
      rw [zipIdx_map_snd]
      exact pairwise_lt_range' _
    refine (pairwise_map.1 hsorted).imp fun {e e'} hlt o ho o' ho' => ?_
    rw [hposition e o ho, hposition e' o' ho']
    exact le_of_lt hlt

section

variable {offers : List Offer} {offer : Offer} {old : NodeId} {q : Nat} {entry : Member}

/-- An entry stays if no earlier base offers a different node. -/
theorem foldl_entryAfter_of_agree (h : ∀ o ∈ offers, o.position < q → o.node = old) :
    offers.foldl entryAfter (some ⟨old, .inherited q⟩) = some ⟨old, .inherited q⟩ := by
  induction offers with
  | nil => rfl
  | cons o offers ih =>
    have hstays : entryAfter (some ⟨old, .inherited q⟩) o = some ⟨old, .inherited q⟩ :=
      if_neg fun htaken => htaken.2 (h o mem_cons_self htaken.1).symm
    rw [foldl_cons, hstays]
    exact ih fun o' ho' => h o' (mem_cons_of_mem _ ho')

/-- What has just been taken up stays, since the offers are in order. -/
theorem foldl_entryAfter_of_sorted (h : ∀ o ∈ offers, offer.position ≤ o.position) :
    offers.foldl entryAfter (some ⟨offer.node, .inherited offer.position⟩) =
      some ⟨offer.node, .inherited offer.position⟩ :=
  foldl_entryAfter_of_agree fun o ho hlt => absurd hlt (not_lt.2 (h o ho))

/-- **An entry keeps its node exactly if no earlier base offers a different one.** -/
theorem node_foldl_entryAfter_iff (hsorted : offers.Pairwise fun o o' => o.position ≤ o'.position)
    (h : offers.foldl entryAfter (some ⟨old, .inherited q⟩) = some entry) :
    entry.node = old ↔ ∀ o ∈ offers, o.position < q → o.node = old := by
  refine ⟨fun hnode => ?_, fun hagree => ?_⟩
  · induction offers with
    | nil => exact fun o ho => absurd ho not_mem_nil
    | cons o offers ih =>
      obtain ⟨hfirst, hrest⟩ := pairwise_cons.1 hsorted
      rw [foldl_cons, entryAfter] at h
      split at h
      · next htaken =>
        -- the offer is taken up, and then the node is a different one
        rw [foldl_entryAfter_of_sorted hfirst] at h
        cases h
        exact absurd hnode.symm htaken.2
      · next hstays =>
        intro o' ho' hlt
        rcases mem_cons.1 ho' with rfl | ho'
        · by_contra hne
          exact hstays ⟨hlt, fun heq => hne heq.symm⟩
        · exact ih hrest h o' ho' hlt
  · rw [foldl_entryAfter_of_agree hagree] at h
    cases h
    rfl

/-- The node of the first offer gets into the table exactly if the entry that was there gives way to
it, or is for that node and does not give way to another one. -/
theorem node_foldl_entryAfter_cons_iff {start : Option Member}
    (hsorted : (offer :: offers).Pairwise fun o o' => o.position ≤ o'.position)
    (h : (offer :: offers).foldl entryAfter start = some entry) (hinherited : entry.origin ≠ .own) :
    entry.node = offer.node ↔ ∀ old q, start = some ⟨old, .inherited q⟩ →
      (old ≠ offer.node ∧ offer.position < q) ∨
        (old = offer.node ∧ ∀ o ∈ offer :: offers, o.position < q → o.node = offer.node) := by
  obtain ⟨hleast, -⟩ := pairwise_cons.1 hsorted
  have htaken : entryAfter start offer = some ⟨offer.node, .inherited offer.position⟩ →
      entry.node = offer.node := by
    intro htaken
    rw [foldl_cons, htaken, foldl_entryAfter_of_sorted hleast] at h
    cases h
    rfl
  rcases start with - | ⟨old, - | q⟩
  · exact iff_of_true (htaken rfl) fun old q hstart => absurd hstart.symm (Option.some_ne_none _)
  · rw [foldl_entryAfter_own_iff.2 rfl] at h
    cases h
    exact absurd rfl hinherited
  have hkeeps := node_foldl_entryAfter_iff hsorted h
  by_cases hsame : old = offer.node
  · subst hsame
    refine hkeeps.trans ⟨?_, fun hwon => ?_⟩
    · rintro hagree old q ⟨⟩
      exact .inr ⟨rfl, hagree⟩
    · exact (hwon _ q rfl).elim (fun hlost => absurd rfl hlost.1) fun hagree => hagree.2
  · constructor
    · rintro hnode old q ⟨⟩
      refine .inl ⟨hsame, ?_⟩
      by_contra hle
      refine hsame ((hkeeps.2 fun o ho hlt => ?_).symm.trans hnode)
      rcases mem_cons.1 ho with rfl | ho
      · exact absurd hlt hle
      · exact absurd (lt_of_le_of_lt (hleast o ho) hlt) hle
    · intro hwon
      rcases hwon old q rfl with ⟨-, hlt⟩ | ⟨heq, -⟩
      · exact htaken (if_pos ⟨hlt, hsame⟩)
      · exact absurd heq hsame

end

/-! ### The first base with a name -/

/-- The first position at which a class with some member stands among the bases, and the node of
that member. -/
structure FirstBase (g : Graph) (c : ClassId) (name : String) (position : Nat) (node : NodeId) : Prop where
  has : ∃ p m, g.BaseAt c position p ∧ g.member? p name = some m ∧ m.node = node
  first : ∀ i < position, ∀ p, g.BaseAt c i p → g.member? p name = none

/-- When the node at the first position prevails over the entry that a table has before a merge: an
entry for another node has to be from a later position, and an entry for that node must not meet a
different one at an earlier position than its own. -/
def Prevails (g : Graph) (c : ClassId) (name : String) (position : Nat) (node : NodeId)
    (start : Option Member) : Prop :=
  ∀ old q, start = some ⟨old, .inherited q⟩ →
    (old ≠ node ∧ position < q) ∨
      (old = node ∧ ∀ i < q, ∀ p m, g.BaseAt c i p → g.member? p name = some m → m.node = node)

/-- What a merge has made of an entry: the offers are those of the parents, in order. -/
structure MergedEntry (g : Graph) (c : ClassId) (name : String) (start : Option Member)
    (entry : Member) (offers : List Offer) : Prop where
  sorted : offers.Pairwise fun o o' => o.position ≤ o'.position
  mem_iff : ∀ o, o ∈ offers ↔ o.name = name ∧ ∃ p m, g.BaseAt c o.position p ∧ p ≠ c ∧
    g.member? p name = some m ∧ m.node = o.node
  fold : offers.foldl entryAfter start = some entry

namespace MergedEntry

variable {start : Option Member} {entry : Member} {offers : List Offer} {position : Nat} {node : NodeId}

variable (h : MergedEntry g c name start entry offers)
include h

theorem least (hfirst : g.FirstBase c name position node) (ho : o ∈ offers) :
    position ≤ o.position := by
  obtain ⟨-, p, m, hbase, -, hp, -⟩ := (h.mem_iff o).1 ho
  by_contra hlt
  rw [hfirst.first o.position (lt_of_not_ge hlt) p hbase] at hp
  cases hp

theorem prevails (hentry : g.member? c name = some entry)
    (hfirst : g.FirstBase c name position entry.node) :
    Prevails g c name position entry.node start := by
  rintro old q rfl
  have hkeeps := node_foldl_entryAfter_iff h.sorted h.fold
  by_cases hsame : old = entry.node
  · refine .inr ⟨hsame, fun i hi p m hbase hp => ?_⟩
    -- a class may be its own base, and then has nothing to offer
    by_cases hself : p = c
    · rw [hself, hentry] at hp
      cases hp
      rfl
    · have hoffer := (h.mem_iff ⟨i, name, m.node⟩).2 ⟨rfl, p, m, hbase, hself, hp, rfl⟩
      exact (hkeeps.1 hsame.symm _ hoffer hi).trans hsame
  · refine .inl ⟨hsame, ?_⟩
    by_contra hle
    refine hsame (hkeeps.2 fun o ho hlt => ?_).symm
    exact absurd (lt_of_le_of_lt (h.least hfirst ho) hlt) hle

/-- The first offer is that of the first base. -/
theorem exists_cons {m : Member} (hsingle : ∀ b ∈ g.bases c, ∃! p, .classObject p ∈ g.types b)
    (hfirst : g.FirstBase c name position node) (hbase : g.BaseAt c position p) (hne : p ≠ c)
    (hp : g.member? p name = some m) :
    ∃ o rest, offers = o :: rest ∧ o.position = position ∧ o.node = m.node := by
  have hoffer : ⟨position, name, m.node⟩ ∈ offers := (h.mem_iff _).2 ⟨rfl, p, m, hbase, hne, hp, rfl⟩
  obtain ⟨o, rest, rfl⟩ := exists_cons_of_ne_nil (ne_nil_of_mem hoffer)
  have hposition : o.position = position := by
    refine le_antisymm ?_ (h.least hfirst mem_cons_self)
    rcases mem_cons.1 hoffer with heq | hlater
    · rw [← heq]
    · exact (pairwise_cons.1 h.sorted).1 _ hlater
  refine ⟨o, rest, rfl, hposition, ?_⟩
  obtain ⟨-, p', m', ⟨b', hb', ht'⟩, -, hp', hnode⟩ := (h.mem_iff o).1 mem_cons_self
  obtain ⟨b, hb, ht⟩ := hbase
  rw [hposition, hb] at hb'
  cases hb'
  rw [(hsingle _ (mem_of_getElem? hb)).unique ht' ht, hp] at hp'
  cases hp'
  exact hnode.symm

theorem of_prevails (hsingle : ∀ b ∈ g.bases c, ∃! p, .classObject p ∈ g.types b)
    (hentry : g.member? c name = some entry) (hinherited : entry.origin ≠ .own)
    (hfirst : g.FirstBase c name position node)
    (hprevails : Prevails g c name position node start) : entry.node = node := by
  obtain ⟨p, m, hbase, hp, rfl⟩ := hfirst.has
  by_cases hself : p = c
  · rw [hself, hentry] at hp
    cases hp
    rfl
  obtain ⟨o, rest, rfl, hposition, hnode⟩ := h.exists_cons hsingle hfirst hbase hself hp
  rw [← hnode, node_foldl_entryAfter_cons_iff h.sorted h.fold hinherited]
  intro old q hstart
  rw [hposition, hnode]
  refine (hprevails old q hstart).imp_right fun hagree => ⟨hagree.1, fun o' ho' hlt => ?_⟩
  obtain ⟨-, p', m', hbase', -, hp', hnode'⟩ := (h.mem_iff o').1 ho'
  exact hnode' ▸ hagree.2 o'.position hlt p' m' hbase' hp'

end MergedEntry

namespace InTouch

variable {m : Graph} {classNode : NodeId} {rest : List NodeId} {position : Nat} {entry : Member}

variable (h : InTouch again c classNode rest m g)
include h

variable (hmerged : Merged c m (m.turn classNode rest))
include hmerged

theorem baseAt_iff : g.BaseAt c position p ↔ m.BaseAt c position p := by
  rw [BaseAt, BaseAt, h.bases hmerged]
  refine exists_congr fun b => and_congr_right fun hb => ?_
  rw [h.sets b (mem_of_getElem? hb)]

/-- An inherited entry is what the last merge has left. -/
theorem foldl_eq (hentry : g.member? c name = some entry) (hinherited : entry.origin ≠ .own) :
    ((m.offers c).filter fun o => o.name = name).foldl entryAfter (m.member? c name) = some entry := by
  rw [← hmerged.table]
  have hnot : ∀ n, g.member? c name ≠ some ⟨n, .own⟩ := by
    intro n hn
    rw [hentry] at hn
    cases hn
    exact hinherited rfl
  rcases hm : (m.turn classNode rest).member? c name with - | e
  · rcases h.grows.added name hm with hnone | ⟨n, hn⟩
    · rw [hentry] at hnone
      cases hnone
    · exact absurd hn (hnot n)
  · rcases h.grows.kept name e hm with hkept | ⟨-, n, hn⟩
    · exact hkept.symm.trans hentry
    · exact absurd hn (hnot n)

/-- What was offered at the last merge is what the parents have. -/
theorem mem_offers_iff (hkeyed : m.Keyed) :
    o ∈ m.offers c ↔ ∃ p mem, g.BaseAt c o.position p ∧ p ≠ c ∧ g.member? p o.name = some mem ∧
      mem.node = o.node := by
  rw [Graph.mem_offers_iff]
  constructor
  · rintro ⟨p, info, hbase, hne, hp, mem, hmem, hnode⟩
    refine ⟨p, mem, (h.baseAt_iff hmerged).2 hbase, hne, ?_, hnode⟩
    rw [(h.tables p hbase.mem_parents hne).1, member?, hp]
    exact Table.get?_eq_some_of_mem (hkeyed p info hp) hmem
  · rintro ⟨p, mem, hbase, hne, hmem, hnode⟩
    have hbase' := (h.baseAt_iff hmerged).1 hbase
    rw [(h.tables p hbase'.mem_parents hne).1] at hmem
    obtain ⟨info, hp, hget⟩ := Option.bind_eq_some_iff.1 hmem
    exact ⟨p, info, hbase', hne, hp, mem, Table.mem_entries_of_get? hget, hnode⟩

theorem mergedEntry (hkeyed : m.Keyed) (hentry : g.member? c name = some entry)
    (hinherited : entry.origin ≠ .own) :
    MergedEntry g c name (m.member? c name) entry ((m.offers c).filter fun o => o.name = name) := by
  refine ⟨(pairwise_offers m c).filter _, fun o => ?_, h.foldl_eq hmerged hentry hinherited⟩
  rw [mem_filter, h.mem_offers_iff hmerged hkeyed, and_comm, decide_eq_true_iff]
  exact and_congr_right fun hname => by rw [hname]

end InTouch

/-- **When the first base wins.**  Let any requests be made, each with numbers that exist, that give
bases to a class at most once, and look at a member that a class inherits while each of its bases
holds one class.  The class has the node of the first base that has the name exactly if that node
prevails over the entry that the class had just before it was merged for the last time. -/
theorem first_base_wins_iff (unboundAsNone : Bool) (rs : List Request)
    (hgiven : Request.AllGiven (.empty unboundAsNone) rs)
    (honce : (rs.filterMap Request.basesOf?).Nodup) (c : ClassId) (name : String) (entry : Member)
    (position : Nat) (node : NodeId)
    (hsingle : ∀ b ∈ (Request.runAll (.empty unboundAsNone) rs).bases c,
      ∃! p, .classObject p ∈ (Request.runAll (.empty unboundAsNone) rs).types b)
    (hentry : (Request.runAll (.empty unboundAsNone) rs).member? c name = some entry)
    (hinherited : entry.origin ≠ .own)
    (hfirst : (Request.runAll (.empty unboundAsNone) rs).FirstBase c name position node) :
    ∃ classNode before k after,
      (Request.runAll (.empty unboundAsNone) rs).rule? classNode = some (.members c) ∧
      Request.allMoments (.empty unboundAsNone) rs = before ++ k :: after ∧
      k.worklist.head? = some classNode ∧ (∀ l ∈ after, l.worklist.head? ≠ some classNode) ∧
      (entry.node = node ↔
        Prevails (Request.runAll (.empty unboundAsNone) rs) c name position node (k.member? c name)) := by
  have harises : Arises True _ _ := arises_runAll hgiven honce (.inl trivial)
  generalize Request.runAll (.empty unboundAsNone) rs = g at *
  obtain ⟨info, hc, -⟩ := Option.bind_eq_some_iff.1 hentry
  obtain ⟨before, k, after, rest, hhistory, hv, hw, hr, hafter, htouch⟩ := harises.lastMerge hc
  have hkeyed : k.Keyed := harises.keyed_history.2 k (by rw [hhistory]; simp)
  have hmerge := htouch.mergedEntry (merged_turn hv hw hr) hkeyed hentry hinherited
  refine ⟨info.node, before, k, after, (harises.reachable.sound.valid.owner _ c).2 ⟨info, hc, rfl⟩,
    hhistory, by rw [hw]; rfl, hafter, ?_, hmerge.of_prevails hsingle hentry hinherited hfirst⟩
  rintro rfl
  exact hmerge.prevails hentry hfirst

/-- A class with two bases and a class below it.  The second base gets a member first, then the
first base gets one of the same name. -/
def lateMemberRequests : List Request :=
  [.addClass "A" 1, .addClass "B" 2, .addClass "P" 3, .addClass "C" 4, .setBases ⟨2⟩ [⟨0⟩, ⟨1⟩],
    .setBases ⟨3⟩ [⟨2⟩], .add (.plain []) 5, .addOwnMember ⟨1⟩ "x" ⟨4⟩, .add (.plain []) 6,
    .addOwnMember ⟨0⟩ "x" ⟨5⟩]

def lateMember : Graph := Request.runAll (.empty true) lateMemberRequests

theorem existsUnique_of_toList {b : NodeId} (h : (g.types b).toList = [.classObject p]) :
    ∃! p, .classObject p ∈ g.types b := by
  have hmem : ∀ q, .classObject q ∈ g.types b ↔ q = p := by
    intro q
    show .classObject q ∈ (g.types b).toList ↔ q = p
    rw [h, mem_singleton, Ty.classObject.injEq]
  exact ⟨p, (hmem p).2 rfl, fun q hq => (hmem q).1 hq⟩

theorem existsUnique_lateMember (c : ClassId) (b : NodeId) (hb : b ∈ lateMember.bases c) :
    ∃! p, .classObject p ∈ lateMember.types b := by
  have hall : ∀ info ∈ lateMember.classes.toList, ∀ b ∈ info.bases,
      ∃ i ∈ List.range 4, (lateMember.types b).toList = [.classObject ⟨i⟩] := by decide +kernel
  rcases hc : lateMember.class? c with - | info
  · rw [bases, hc] at hb
    exact absurd hb not_mem_nil
  · rw [bases, hc] at hb
    have hinfo : info ∈ lateMember.classes.toList := Array.mem_toList_iff.2 (Array.mem_of_getElem? hc)
    obtain ⟨i, -, htypes⟩ := hall info hinfo b hb
    exact existsUnique_of_toList htypes

theorem firstBase_lateMember_parent : lateMember.FirstBase ⟨2⟩ "x" 0 ⟨5⟩ := by
  have hbase : .classObject ⟨0⟩ ∈ (lateMember.types ⟨0⟩).toList := by decide +kernel
  exact ⟨⟨⟨0⟩, ⟨⟨5⟩, .own⟩, ⟨⟨0⟩, by decide +kernel, hbase⟩, by decide +kernel, rfl⟩,
    fun i hi => absurd hi (Nat.not_lt_zero i)⟩

theorem firstBase_lateMember_child : lateMember.FirstBase ⟨3⟩ "x" 0 ⟨5⟩ := by
  have hbase : .classObject ⟨2⟩ ∈ (lateMember.types ⟨2⟩).toList := by decide +kernel
  exact ⟨⟨⟨2⟩, ⟨⟨5⟩, .inherited 0⟩, ⟨⟨2⟩, by decide +kernel, hbase⟩, by decide +kernel, rfl⟩,
    fun i hi => absurd hi (Nat.not_lt_zero i)⟩

/-- The node of the first base has prevailed in the class itself, but not in the one below it. -/
theorem first_base_wins_iff_lateMember :
    (∃ k ∈ Request.allMoments (.empty true) lateMemberRequests,
      Prevails lateMember ⟨2⟩ "x" 0 ⟨5⟩ (k.member? ⟨2⟩ "x")) ∧
    ∃ k ∈ Request.allMoments (.empty true) lateMemberRequests,
      ¬ Prevails lateMember ⟨3⟩ "x" 0 ⟨5⟩ (k.member? ⟨3⟩ "x") := by
  have hgiven : Request.AllGiven (.empty true) lateMemberRequests := by decide +kernel
  have honce : (lateMemberRequests.filterMap Request.basesOf?).Nodup := by decide +kernel
  obtain ⟨-, before, k, after, -, hk, -, -, hwins⟩ := first_base_wins_iff true lateMemberRequests hgiven honce ⟨2⟩ "x"
    ⟨⟨5⟩, .inherited 0⟩ 0 ⟨5⟩ (existsUnique_lateMember ⟨2⟩) (by decide +kernel) (by decide)
    firstBase_lateMember_parent
  obtain ⟨-, before, l, after, -, hl, -, -, hloses⟩ := first_base_wins_iff true lateMemberRequests hgiven honce ⟨3⟩ "x"
    ⟨⟨4⟩, .inherited 0⟩ 0 ⟨5⟩ (existsUnique_lateMember ⟨3⟩) (by decide +kernel) (by decide)
    firstBase_lateMember_child
  exact ⟨⟨k, by rw [hk]; simp, hwins.1 rfl⟩, ⟨l, by rw [hl]; simp, fun h => absurd (hloses.2 h) (by decide)⟩⟩

/-- **The first base does not always win**, although bases are given once and hold one class each:
the parent has the late member, and the class below it keeps the one that the parent had before. -/
theorem first_base_can_lose :
    Request.AllGiven (.empty true) lateMemberRequests ∧
      (lateMemberRequests.filterMap Request.basesOf?).Nodup ∧
      (∀ c, ∀ b ∈ lateMember.bases c, ∃! p, .classObject p ∈ lateMember.types b) ∧
      lateMember.member? ⟨3⟩ "x" = some ⟨⟨4⟩, .inherited 0⟩ ∧ lateMember.FirstBase ⟨3⟩ "x" 0 ⟨5⟩ :=
  ⟨by decide +kernel, by decide +kernel, existsUnique_lateMember, by decide +kernel,
    firstBase_lateMember_child⟩

end Graph

end FlowTyping
