/-
The narrowing of parameters finds the largest domains that agree with all uses.

Domains agree with the uses if each keeps to the kinds that its restrictions allow and if, for every
pair that an operator ties, each kind of one side works with some kind of the other; each half of
the second condition is what one arc asks for (`Holds`).

The queue covers the arcs that may not hold (`settle_spec`).  A revision can break only the arcs
that read the domain which shrinks, and those are queued again, except for the arc just revised.
That arc reads the domain itself if an operator ties a parameter with itself; it holds all the same,
because wherever `l op r` is defined, so is `r op l`, `l op l` or `r op r`.  No revision drops a
kind that agreeing domains need, so what is left in the end is the greatest of them.
-/
import Mathlib
import FlowTyping.Domain

namespace FlowTyping

open List

variable {k : Kind} {onLeft : Bool} {op : BinaryOp}

/-! ### Kind sets by inclusion -/

instance : PartialOrder KindSet where
  le s t := ∀ k, s.contains k = true → t.contains k = true
  le_refl _ _ h := h
  le_trans _ _ _ hst htu k h := htu k (hst k h)
  le_antisymm _ _ hst hts := KindSet.ext fun k => Bool.eq_iff_iff.2 ⟨hst k, hts k⟩

theorem KindSet.empty_le (s : KindSet) : .empty ≤ s := fun k h => by
  rw [KindSet.contains_empty] at h
  cases h

/-! ### Operators, seen from one side -/

/-- Whether a kind on one side of an operator works with a kind on the other. -/
def BinaryOp.works (op : BinaryOp) (onLeft : Bool) (k p : Kind) : Bool :=
  if onLeft then op.supports k p else op.supports p k

/-- Where an operator works on two kinds, it works the other way round or on one of the kinds alone.
-/
theorem BinaryOp.supports_swap_or_self (op : BinaryOp) (l r : Kind) (h : op.supports l r = true) :
    op.supports r l = true ∨ op.supports l l = true ∨ op.supports r r = true := by
  have htable : ∀ l ∈ Kind.all, ∀ r ∈ Kind.all, op.supports l r = true →
      op.supports r l = true ∨ op.supports l l = true ∨ op.supports r r = true := by
    cases op <;> decide
  exact htable l (Kind.mem_all l) r (Kind.mem_all r) h

theorem BinaryOp.works_swap_or_self {p : Kind} (h : op.works onLeft k p = true) :
    op.works onLeft p k = true ∨ op.works onLeft k k = true ∨ op.works onLeft p p = true := by
  cases onLeft with
  | true => exact op.supports_swap_or_self k p h
  | false => exact (op.supports_swap_or_self p k h).imp_right Or.symm

theorem KindSet.contains_revise_iff {domain partner : KindSet} :
    (KindSet.revise op domain partner onLeft).contains k = true ↔
      domain.contains k = true ∧ ∃ p, partner.contains p = true ∧ op.works onLeft k p = true := by
  rw [KindSet.revise, KindSet.contains_ofPred, Bool.and_eq_true, any_eq_true]
  exact and_congr_right fun _ => exists_congr fun p => and_congr_left fun _ => KindSet.mem_toList

/-- Revising a domain against itself once is enough. -/
theorem KindSet.exists_works_revise_self {domain : KindSet}
    (h : (KindSet.revise op domain domain onLeft).contains k = true) :
    ∃ p, (KindSet.revise op domain domain onLeft).contains p = true ∧ op.works onLeft k p = true := by
  obtain ⟨hk, p, hp, hworks⟩ := KindSet.contains_revise_iff.1 h
  rcases BinaryOp.works_swap_or_self hworks with hswap | hself | hself
  · exact ⟨p, KindSet.contains_revise_iff.2 ⟨hp, k, hk, hswap⟩, hworks⟩
  · exact ⟨k, h, hself⟩
  · exact ⟨p, KindSet.contains_revise_iff.2 ⟨hp, p, hp, hself⟩, hworks⟩

namespace Domains

variable {count i : Nat} {e : Arc × Pair} {kinds : List KindSet} {old : KindSet} {p : Pair}
  {uses : List Use} {pairs : List Pair} {D : Nat → KindSet} {d : Domains} {arc a : Arc}

/-! ### Arcs -/

theorem mem_arcs (he : e ∈ arcs pairs) : pairs[e.1.pair]? = some e.2 := by
  obtain ⟨⟨p, i⟩, hp, hmem⟩ := mem_flatMap.1 he
  have hget := mk_mem_zipIdx_iff_getElem?.1 hp
  rcases mem_cons.1 hmem with rfl | hmem
  · exact hget
  · rw [mem_singleton.1 hmem]
    exact hget

theorem mem_arcs_of_getElem? (h : pairs[arc.pair]? = some p) : (arc, p) ∈ arcs pairs := by
  obtain ⟨i, onLeft⟩ := arc
  refine mem_flatMap.2 ⟨(p, i), mk_mem_zipIdx_iff_getElem?.2 h, ?_⟩
  cases onLeft <;> simp

/-- What an arc asks of domains: each kind on its side works with some kind on the other side. -/
def Holds (D : Nat → KindSet) (e : Arc × Pair) : Prop :=
  ∀ k, (D (e.2.target e.1.onLeft)).contains k = true →
    ∃ p, (D (e.2.source e.1.onLeft)).contains p = true ∧ e.2.op.works e.1.onLeft k p = true

/-- The domain at a position; there is no kind at a position that does not exist. -/
def domain (kinds : List KindSet) (i : Nat) : KindSet := kinds[i]?.getD .empty

theorem domain_set (h : kinds[i]? = some old) (new : KindSet) (j : Nat) :
    domain (kinds.set i new) j = if i = j then new else domain kinds j := by
  have hlt : i < kinds.length := (List.getElem?_eq_some_iff.1 h).1
  simp only [domain, List.getElem?_set]
  split
  · next hij =>
    subst hij
    simp
  · rfl

/-- A smaller domain keeps what an arc asks for, unless the arc reads it. -/
theorem Holds.set {new : KindSet} (h : Holds (domain kinds) e) (hi : kinds[i]? = some old)
    (hle : new ≤ old) (hsource : e.2.source e.1.onLeft ≠ i) :
    Holds (domain (kinds.set i new)) e := by
  intro k hk
  rw [domain_set hi] at hk
  rw [domain_set hi, if_neg hsource.symm]
  apply h
  split at hk
  · next htarget =>
    rw [← htarget, domain, hi]
    exact hle k hk
  · exact hk

/-- The arc just revised holds, also if it reads the domain that has shrunk. -/
theorem holds_revised (hold : kinds[p.target a.onLeft]? = some old) :
    Holds (domain (kinds.set (p.target a.onLeft)
      (KindSet.revise p.op old (domain kinds (p.source a.onLeft)) a.onLeft))) (a, p) := by
  intro k hk
  simp only [domain_set hold, if_true] at hk ⊢
  by_cases hself : p.target a.onLeft = p.source a.onLeft
  · rw [if_pos hself]
    have hpartner : domain kinds (p.source a.onLeft) = old := by
      rw [← hself, domain, hold]
      rfl
    rw [hpartner] at hk ⊢
    exact KindSet.exists_works_revise_self hk
  · rw [if_neg hself]
    exact (KindSet.contains_revise_iff.1 hk).2

/-- Smaller domains that an arc holds for survive a revision of that arc. -/
theorem Holds.le_revise {partner : KindSet} (h : Holds D (a, p))
    (htarget : D (p.target a.onLeft) ≤ old) (hsource : D (p.source a.onLeft) ≤ partner) :
    D (p.target a.onLeft) ≤ KindSet.revise p.op old partner a.onLeft := by
  intro k hk
  obtain ⟨q, hq, hworks⟩ := h k hk
  exact KindSet.contains_revise_iff.2 ⟨htarget k hk, q, hsource q hq, hworks⟩

/-- Arcs that do not wait hold. -/
def Covered (pairs : List Pair) (kinds : List KindSet) (queue : List Arc) : Prop :=
  ∀ e ∈ arcs pairs, e.1 ∉ queue → Holds (domain kinds) e

theorem mem_affected {queue : List Arc} {target : Nat}
    (he : e ∈ arcs pairs) (hreads : e.2.source e.1.onLeft = target) (hne : e.1 ≠ arc)
    (hnot : e.1 ∉ queue) : e.1 ∈ affected pairs queue arc target := by
  obtain ⟨a, p⟩ := e
  refine mem_filterMap.2 ⟨(a, p), he, ?_⟩
  exact if_pos ⟨hreads, hne, hnot⟩

section

variable {pairs : List Pair} {kinds : List KindSet} {queue : List Arc} {arc : Arc} {p : Pair}
  {old : KindSet}

theorem Covered.drop (h : Covered pairs kinds (arc :: queue))
    (harc : ∀ p, pairs[arc.pair]? = some p → Holds (domain kinds) (arc, p)) :
    Covered pairs kinds queue := by
  intro e he hnot
  by_cases heq : e.1 = arc
  · subst heq
    exact harc e.2 (mem_arcs he)
  · exact h e he fun hmem => (mem_cons.1 hmem).elim heq hnot

/-- A revision that shrinks a domain queues every arc that it may break. -/
theorem Covered.revise (h : Covered pairs kinds (arc :: queue)) (hpair : pairs[arc.pair]? = some p)
    (hold : kinds[p.target arc.onLeft]? = some old) :
    Covered pairs
      (kinds.set (p.target arc.onLeft)
        (KindSet.revise p.op old (domain kinds (p.source arc.onLeft)) arc.onLeft))
      (queue ++ affected pairs queue arc (p.target arc.onLeft)) := by
  intro e he hnot
  rw [mem_append, not_or] at hnot
  obtain ⟨hqueue, haffected⟩ := hnot
  by_cases heq : e.1 = arc
  · obtain ⟨a, q⟩ := e
    subst heq
    have hq := mem_arcs he
    rw [hpair] at hq
    cases hq
    exact holds_revised hold
  · have hbefore : Holds (domain kinds) e :=
      h e he fun hmem => (mem_cons.1 hmem).elim heq hqueue
    apply hbefore.set hold fun _ => contains_revise
    exact fun hreads => haffected (mem_affected he hreads heq hqueue)

/-- A revision drops no kind of smaller domains that all arcs hold for. -/
theorem le_domain_revised (hD : ∀ e ∈ arcs pairs, Holds D e)
    (hle : ∀ i, D i ≤ domain kinds i) (hpair : pairs[arc.pair]? = some p)
    (hold : kinds[p.target arc.onLeft]? = some old) (i : Nat) :
    D i ≤ domain (kinds.set (p.target arc.onLeft)
      (KindSet.revise p.op old (domain kinds (p.source arc.onLeft)) arc.onLeft)) i := by
  rw [domain_set hold]
  split
  · next hi =>
    subst hi
    have htarget := hle (p.target arc.onLeft)
    rw [domain, hold] at htarget
    exact (hD _ (mem_arcs_of_getElem? hpair)).le_revise htarget (hle _)
  · exact hle i

end

/-- **What the loop comes to.**  If every arc that does not wait holds, then in the end every arc
holds, no domain has grown, and smaller domains that all arcs hold for are still smaller. -/
theorem settle_spec (pairs : List Pair) (kinds : List KindSet) (queue : List Arc)
    (h : Covered pairs kinds queue) :
    (∀ e ∈ arcs pairs, Holds (domain (settle pairs kinds queue)) e) ∧
      (∀ i, domain (settle pairs kinds queue) i ≤ domain kinds i) ∧
      ∀ D : Nat → KindSet, (∀ e ∈ arcs pairs, Holds D e) → (∀ i, D i ≤ domain kinds i) →
        ∀ i, D i ≤ domain (settle pairs kinds queue) i := by
  fun_induction settle pairs kinds queue with
  | case1 kinds =>
    exact ⟨fun e he => h e he not_mem_nil, fun i => le_refl _, fun D _ hle => hle⟩
  | case2 kinds arc queue hnone ih =>
    refine ih (h.drop fun p hp => ?_)
    rw [hnone] at hp
    cases hp
  | case3 kinds arc queue p hpair hnone ih =>
    -- the position has no domain, so there is nothing to ask for
    refine ih (h.drop fun q hq k hk => ?_)
    rw [hpair] at hq
    cases hq
    rw [domain, hnone, Option.getD_none, KindSet.contains_empty] at hk
    cases hk
  | case4 kinds arc queue p hpair old hold partner revised hsame ih =>
    refine ih (h.drop fun q hq k hk => ?_)
    rw [hpair] at hq
    cases hq
    rw [domain, hold, Option.getD_some, ← hsame] at hk
    exact (KindSet.contains_revise_iff.1 hk).2
  | case5 kinds arc queue p hpair old hold partner revised hsmaller ih =>
    obtain ⟨hholds, hsub, habove⟩ := ih (h.revise hpair hold)
    refine ⟨hholds, fun i => (hsub i).trans ?_,
      fun D hD hle => habove D hD (le_domain_revised hD hle hpair hold)⟩
    rw [domain_set hold]
    split
    · next hi =>
      subst hi
      rw [domain, hold]
      exact fun _ => contains_revise
    · exact le_refl _

/-- One turn of the loop: the arc at the head of the queue is revised. -/
def revision (pairs : List Pair) : List KindSet × List Arc → List KindSet × List Arc
  | (kinds, []) => (kinds, [])
  | (kinds, arc :: queue) =>
    match pairs[arc.pair]? with
    | none => (kinds, queue)
    | some p =>
      match kinds[p.target arc.onLeft]? with
      | none => (kinds, queue)
      | some old =>
        let revised := KindSet.revise p.op old (domain kinds (p.source arc.onLeft)) arc.onLeft
        if revised = old then (kinds, queue)
        else
          (kinds.set (p.target arc.onLeft) revised,
            queue ++ affected pairs queue arc (p.target arc.onLeft))

theorem exists_revisions (pairs : List Pair) (kinds : List KindSet) (queue : List Arc) :
    ∃ n, (revision pairs)^[n] (kinds, queue) = (settle pairs kinds queue, []) := by
  have hstep : ∀ {s s' : List KindSet × List Arc} {t : List KindSet × List Arc},
      revision pairs s = s' → (∃ n, (revision pairs)^[n] s' = t) →
        ∃ n, (revision pairs)^[n] s = t := by
    rintro s - t rfl ⟨n, hn⟩
    exact ⟨n + 1, hn⟩
  fun_induction settle pairs kinds queue with
  | case1 kinds => exact ⟨0, rfl⟩
  | case2 kinds arc queue hnone ih => exact hstep (by simp only [revision, hnone]) ih
  | case3 kinds arc queue p hpair hnone ih => exact hstep (by simp only [revision, hpair, hnone]) ih
  | case4 kinds arc queue p hpair old hold partner revised hsame ih =>
    exact hstep (by simp only [revision, hpair, hold]; exact if_pos hsame) ih
  | case5 kinds arc queue p hpair old hold partner revised hsmaller ih =>
    exact hstep (by simp only [revision, hpair, hold]; exact if_neg hsmaller) ih

/-! ### Uses -/

/-- A use of the parameters of a function. -/
inductive Use where
  | restrict (position : Nat) (allowed : KindSet)
  | pair (left right : Nat) (op : BinaryOp)

def after (d : Domains) : Use → Domains
  | .restrict position allowed => d.restrict position allowed
  | .pair left right op => d.pair left right op

/-- The domains of `count` parameters after all uses. -/
def ofUses (count : Nat) (uses : List Use) : Domains := uses.foldl after (.ofCount count)

theorem length_after (d : Domains) (u : Use) : (d.after u).kinds.length = d.kinds.length := by
  cases u with
  | restrict position allowed => exact length_modify ..
  | pair left right op =>
    simp only [after, Domains.pair]
    split <;> rfl

theorem length_foldl_after (uses : List Use) (d : Domains) :
    (uses.foldl after d).kinds.length = d.kinds.length := by
  induction uses generalizing d with
  | nil => rfl
  | cons u uses ih => rw [foldl_cons, ih, length_after]

theorem length_ofUses (count : Nat) (uses : List Use) :
    (ofUses count uses).kinds.length = count := by
  rw [ofUses, length_foldl_after]
  exact length_replicate

variable {u : Use}

theorem contains_domain_after {k : Kind} : (domain (d.after u).kinds i).contains k = true ↔
      (domain d.kinds i).contains k = true ∧
        ∀ allowed, u = .restrict i allowed → allowed.contains k = true := by
  cases u with
  | restrict position allowed =>
    simp only [after, Domains.restrict, domain, List.getElem?_modify]
    by_cases hi : position = i
    · subst hi
      rcases d.kinds[position]? with - | old <;> simp
    · simp [hi]
  | pair left right op =>
    have hkinds : (d.pair left right op).kinds = d.kinds := by
      unfold Domains.pair
      split <;> rfl
    simp [after, hkinds]

theorem contains_domain_ofUses (i : Fin count) (k : Kind) :
    (domain (ofUses count uses).kinds i).contains k = true ↔
      ∀ allowed, .restrict i allowed ∈ uses → allowed.contains k = true := by
  have hfold : ∀ d : Domains, (domain (uses.foldl after d).kinds i).contains k = true ↔
      (domain d.kinds i).contains k = true ∧
        ∀ allowed, .restrict i allowed ∈ uses → allowed.contains k = true := by
    induction uses with
    | nil => simp
    | cons u uses ih =>
      intro d
      rw [foldl_cons, ih, contains_domain_after, and_assoc]
      refine and_congr_right fun _ => ⟨?_, fun h => ⟨?_, ?_⟩⟩
      · rintro ⟨hfirst, hrest⟩ allowed hmem
        rcases mem_cons.1 hmem with heq | hmem
        · exact hfirst allowed heq.symm
        · exact hrest allowed hmem
      · rintro allowed rfl
        exact h allowed mem_cons_self
      · exact fun allowed hmem => h allowed (mem_cons_of_mem _ hmem)
  rw [ofUses, hfold]
  simp [domain, ofCount]

theorem mem_pairs_after : p ∈ (d.after u).pairs ↔
      p ∈ d.pairs ∨ (p.left < d.size ∧ p.right < d.size ∧ u = .pair p.left p.right p.op) := by
  cases u with
  | restrict position allowed => simp [after, Domains.restrict]
  | pair left right op =>
    obtain ⟨l, r, o⟩ := p
    simp only [after, Domains.pair, Use.pair.injEq]
    split
    · next hlt =>
      simp only [mem_append, mem_singleton, Pair.mk.injEq]
      refine or_congr_right ⟨?_, fun h => ?_⟩
      · rintro ⟨rfl, rfl, rfl⟩
        exact ⟨hlt.1, hlt.2, rfl, rfl, rfl⟩
      · exact ⟨h.2.2.1.symm, h.2.2.2.1.symm, h.2.2.2.2.symm⟩
    · next hlt =>
      refine ⟨.inl, fun h => h.elim id ?_⟩
      rintro ⟨hl, hr, rfl, rfl, rfl⟩
      exact absurd ⟨hl, hr⟩ hlt

/-- The pairs that are recorded are the ones of parameters that there are. -/
theorem mem_pairs_ofUses : p ∈ (ofUses count uses).pairs ↔
      p.left < count ∧ p.right < count ∧ .pair p.left p.right p.op ∈ uses := by
  have hfold : ∀ d : Domains, p ∈ (uses.foldl after d).pairs ↔
      p ∈ d.pairs ∨ (p.left < d.size ∧ p.right < d.size ∧ .pair p.left p.right p.op ∈ uses) := by
    induction uses with
    | nil => simp
    | cons u uses ih =>
      intro d
      have hsize : (d.after u).size = d.size := length_after d u
      rw [foldl_cons, ih, mem_pairs_after, hsize, mem_cons, or_assoc, ← and_or_left,
        ← and_or_left, eq_comm]
  have hsize : (ofCount count).size = count := length_replicate
  rw [ofUses, hfold, hsize]
  simp [ofCount]

/-! ### The largest domains -/

/-- Domains of parameters agree with uses: each has only kinds that its restrictions allow,
and where an operator ties two parameters, each kind of one works with some kind of the other. -/
structure Agrees {count : Nat} (uses : List Use) (D : Fin count → KindSet) : Prop where
  allowed : ∀ i allowed, .restrict i.val allowed ∈ uses → D i ≤ allowed
  left : ∀ l r op, .pair l.val r.val op ∈ uses → ∀ k, (D l).contains k = true →
    ∃ k', (D r).contains k' = true ∧ op.supports k k' = true
  right : ∀ l r op, .pair l.val r.val op ∈ uses → ∀ k', (D r).contains k' = true →
    ∃ k, (D l).contains k = true ∧ op.supports k k' = true

/-- The domains of parameters, continued with no kinds. -/
def extended {count : Nat} (D : Fin count → KindSet) (i : Nat) : KindSet :=
  if h : i < count then D ⟨i, h⟩ else .empty

@[simp]
theorem extended_val (D : Fin count → KindSet) (i : Fin count) :
    extended D i = D i := dif_pos i.isLt

theorem agrees_iff {D : Fin count → KindSet} :
    Agrees uses D ↔ (∀ i, extended D i ≤ domain (ofUses count uses).kinds i) ∧
      ∀ e ∈ arcs (ofUses count uses).pairs, Holds (extended D) e := by
  constructor
  · intro h
    refine ⟨fun i => ?_, fun e he => ?_⟩
    · by_cases hi : i < count
      · intro k hk
        refine (contains_domain_ofUses ⟨i, hi⟩ k).2 fun allowed hmem => ?_
        rw [extended, dif_pos hi] at hk
        exact h.allowed ⟨i, hi⟩ allowed hmem k hk
      · rw [extended, dif_neg hi]
        exact KindSet.empty_le _
    · obtain ⟨⟨index, onLeft⟩, ⟨l, r, op⟩⟩ := e
      obtain ⟨hl, hr, hmem⟩ := mem_pairs_ofUses.1 (mem_of_getElem? (mem_arcs he))
      have hleft := h.left ⟨l, hl⟩ ⟨r, hr⟩ op hmem
      have hright := h.right ⟨l, hl⟩ ⟨r, hr⟩ op hmem
      rw [← extended_val D, ← extended_val D] at hleft hright
      cases onLeft with
      | true => exact hleft
      | false => exact hright
  · rintro ⟨hwithin, hholds⟩
    have harc : ∀ (l r : Fin count) op, .pair l.val r.val op ∈ uses → ∀ onLeft,
        ∃ index, Holds (extended D) (⟨index, onLeft⟩, ⟨l, r, op⟩) := by
      intro l r op hmem onLeft
      have hpair : ⟨l, r, op⟩ ∈ (ofUses count uses).pairs :=
        mem_pairs_ofUses.2 ⟨l.isLt, r.isLt, hmem⟩
      obtain ⟨index, hindex⟩ := List.getElem?_of_mem hpair
      exact ⟨index, hholds (⟨index, onLeft⟩, _) (mem_arcs_of_getElem? hindex)⟩
    refine ⟨fun i allowed hmem k hk => ?_, fun l r op hmem k hk => ?_, fun l r op hmem k hk => ?_⟩
    · rw [← extended_val D] at hk
      exact (contains_domain_ofUses i k).1 (hwithin i k hk) allowed hmem
    · obtain ⟨index, harc⟩ := harc l r op hmem true
      rw [← extended_val D] at hk ⊢
      exact harc k hk
    · obtain ⟨index, harc⟩ := harc l r op hmem false
      rw [← extended_val D] at hk ⊢
      exact harc k hk

def solved (count : Nat) (uses : List Use) (i : Fin count) : KindSet :=
  domain (ofUses count uses).solution i

theorem length_settle (pairs : List Pair) (kinds : List KindSet) (queue : List Arc) :
    (settle pairs kinds queue).length = kinds.length := by
  fun_induction settle pairs kinds queue <;> simp_all

theorem solution_eq_ofFn (count : Nat) (uses : List Use) :
    (ofUses count uses).solution = List.ofFn (solved count uses) := by
  have hlength : (ofUses count uses).solution.length = count := by
    rw [solution, length_settle, length_ofUses]
  apply ext_getElem
  · rw [hlength, length_ofFn]
  · intro i hi hi'
    simp [solved, domain, hi]

/-- The solution agrees with the uses, and no agreeing domains have a kind more. -/
theorem isGreatest_solved (count : Nat) (uses : List Use) :
    IsGreatest {D : Fin count → KindSet | Agrees uses D} (solved count uses) := by
  obtain ⟨hholds, hsub, habove⟩ := settle_spec (ofUses count uses).pairs (ofUses count uses).kinds
    ((arcs (ofUses count uses).pairs).map (·.1))
    fun e he hnot => absurd (mem_map_of_mem he) hnot
  have hext : extended (solved count uses) = domain (ofUses count uses).solution := by
    funext i
    by_cases hi : i < count
    · exact dif_pos hi
    · rw [extended, dif_neg hi, domain, List.getElem?_eq_none, Option.getD_none]
      rw [solution_eq_ofFn, length_ofFn]
      exact le_of_not_gt hi
  refine ⟨agrees_iff.2 ?_, fun D hD i => ?_⟩
  · rw [hext]
    exact ⟨hsub, hholds⟩
  · obtain ⟨hwithin, hD⟩ := agrees_iff.1 hD
    have hle := habove (extended D) hD hwithin i
    rw [extended_val] at hle
    exact hle

/-- **The narrowing of parameters finds the largest domains that agree with all uses.**  Whatever
the uses are, also of positions that do not exist, of a parameter tied with itself and of pairs that
are tied twice: finitely many revisions empty the queue, what is left is the greatest of all domains
that agree with the uses, and a parameter is reported with its domain unless that is empty or full.
The order in which the uses come makes no difference. -/
theorem solve_is_greatest (count : Nat) (uses : List Use) :
    ∃ D : Fin count → KindSet, IsGreatest {D : Fin count → KindSet | Agrees uses D} D ∧
      (∃ n, (revision (ofUses count uses).pairs)^[n]
        ((ofUses count uses).kinds, (arcs (ofUses count uses).pairs).map (·.1)) =
          (List.ofFn D, [])) ∧
      (ofUses count uses).solve =
        List.ofFn (fun i => if D i = .empty ∨ D i = .full then none else some (D i)) ∧
      ∀ uses' : List Use, uses.Perm uses' → (ofUses count uses').solve = (ofUses count uses).solve := by
  have hsolve : ∀ uses : List Use, (ofUses count uses).solve = List.ofFn fun i =>
      if solved count uses i = .empty ∨ solved count uses i = .full then none
      else some (solved count uses i) := by
    intro uses
    rw [solve, solution_eq_ofFn, map_ofFn]
    congr 1
    funext i
    simp [KindSet.isEmpty, KindSet.isFull]
  refine ⟨solved count uses, isGreatest_solved count uses, ?_, hsolve uses, fun uses' hperm => ?_⟩
  · rw [← solution_eq_ofFn]
    exact exists_revisions _ _ _
  · -- agreeing with uses does not depend on their order, and there is only one greatest
    have hagrees : {D : Fin count → KindSet | Agrees uses' D} = {D | Agrees uses D} := by
      ext D
      have hmem : ∀ u, u ∈ uses' ↔ u ∈ uses := fun u => hperm.symm.mem_iff
      exact ⟨fun h => ⟨by simpa only [hmem] using h.allowed, by simpa only [hmem] using h.left,
          by simpa only [hmem] using h.right⟩,
        fun h => ⟨by simpa only [hmem] using h.allowed, by simpa only [hmem] using h.left,
          by simpa only [hmem] using h.right⟩⟩
    have hgreatest := isGreatest_solved count uses'
    rw [hagrees] at hgreatest
    rw [hsolve, hsolve, hgreatest.unique (isGreatest_solved count uses)]

end Domains

end FlowTyping
