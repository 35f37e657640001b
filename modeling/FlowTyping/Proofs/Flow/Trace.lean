/-
The paths through the flow graph of a body without `try` are its executions.

A walk between two blocks that are kept passes over dropped blocks without evaluating anything, so
it is also a walk through the folded blocks, and conversely an edge between folded blocks stands for
an edge and a chain of dropped blocks (`walk_finish_iff`).  The first block may be dropped itself;
some block on the way from it is kept, since dropped blocks never lead round in a circle
(`isKept_follow`).
-/
import FlowTyping.Proofs.Flow.Fold
import FlowTyping.Proofs.Flow.Path
import FlowTyping.Proofs.Flow.Simulation

namespace FlowTyping.Flow

open List

variable {blocks : Array Block} {id x x' y y' target : BlockId} {n m k j : Nat} {ss : List Stmt}
  {i : Item}

/-! ### Following dropped blocks -/

theorem isKept_last (blocks : Array Block) : isKept blocks last = true := by
  rw [isKept, Option.isNone_iff_eq_none, Option.eq_none_iff_forall_ne_some]
  intro target h
  obtain ⟨-, -, -, hne, -⟩ := passes?_eq_some_iff.1 h
  exact hne rfl

theorem isKept_eq_false_iff : isKept blocks id = false ↔ ∃ target, passes? blocks id = some target := by
  rw [isKept, Option.isNone_eq_false_iff, Option.isSome_iff_exists]

theorem follow_of_isKept (h : isKept blocks id = true) (n : Nat) : follow blocks n id = id := by
  cases n with
  | zero => rfl
  | succ n => rw [follow, Option.isNone_iff_eq_none.1 h]

theorem follow_succ_of_passes (h : passes? blocks id = some target) (n : Nat) :
    follow blocks (n + 1) id = follow blocks n target := by
  rw [follow, h]

theorem follow_add (blocks : Array Block) (m n : Nat) (id : BlockId) :
    follow blocks (m + n) id = follow blocks n (follow blocks m id) := by
  induction m generalizing id with
  | zero => rw [zero_add, follow]
  | succ m ih =>
    cases h : isKept blocks id with
    | true => rw [follow_of_isKept h, follow_of_isKept h, follow_of_isKept h]
    | false =>
      obtain ⟨target, htarget⟩ := isKept_eq_false_iff.1 h
      rw [Nat.succ_add, follow_succ_of_passes htarget, follow_succ_of_passes htarget, ih]

/-- A chain of dropped blocks that ends has no more blocks than there are. -/
theorem follow_eq_of_isKept (h : isKept blocks (follow blocks n id) = true) :
    follow blocks (blocks.size + 1) id = follow blocks n id := by
  have hex : ∃ m, isKept blocks (follow blocks m id) = true := ⟨n, h⟩
  set m := Nat.find hex with hm
  have hkept : isKept blocks (follow blocks m id) = true := Nat.find_spec hex
  have hdropped : ∀ i < m, isKept blocks (follow blocks i id) = false := fun i hi =>
    Bool.eq_false_iff.2 (Nat.find_min hex hi)
  have hstays : ∀ l, m ≤ l → follow blocks l id = follow blocks m id := by
    intro l hl
    obtain ⟨d, rfl⟩ := Nat.exists_eq_add_of_le hl
    rw [follow_add, follow_of_isKept hkept]
  -- a block that came twice would come again and again
  have hinj : Set.InjOn (fun i => (follow blocks i id).index) (Finset.range m) := by
    suffices hlt : ∀ i l, i < l → l < m → (follow blocks i id).index ≠ (follow blocks l id).index by
      intro i hi l hl heq
      rw [Finset.coe_range, Set.mem_Iio] at hi hl
      rcases Nat.lt_trichotomy i l with hil | rfl | hli
      · exact absurd heq (hlt i l hil hl)
      · rfl
      · exact absurd heq.symm (hlt l i hli hi)
    intro i l hil hl heq
    have hsame : follow blocks i id = follow blocks l id := congrArg BlockId.mk heq
    have hearlier : follow blocks (i + (m - l)) id = follow blocks m id := by
      rw [follow_add, hsame, ← follow_add, Nat.add_sub_cancel' hl.le]
    have hnot := hdropped (i + (m - l)) (by omega)
    rw [hearlier, hkept] at hnot
    cases hnot
  have hle : m ≤ blocks.size := by
    have hcard := Finset.card_le_card_of_injOn (t := Finset.range blocks.size)
      (fun i => (follow blocks i id).index) (fun i hi => ?_) hinj
    · rwa [Finset.card_range, Finset.card_range] at hcard
    · obtain ⟨target, htarget⟩ := isKept_eq_false_iff.1 (hdropped i (Finset.mem_range.1 hi))
      obtain ⟨block, hblock, -⟩ := passes?_eq_some_iff.1 htarget
      exact Finset.mem_coe.2 (Finset.mem_range.2 (Array.getElem?_eq_some_iff.1 hblock).1)
  have hn : m ≤ n := Nat.find_min' hex h
  rw [hstays _ (hle.trans (Nat.le_succ _)), hstays n hn]

/-- If dropped blocks never lead round in a circle, the chain of them ends. -/
theorem isKept_follow (h : WellFounded fun y x => passes? blocks x = some y) (x : BlockId) :
    isKept blocks (follow blocks (blocks.size + 1) x) = true := by
  suffices hends : ∃ n, isKept blocks (follow blocks n x) = true by
    obtain ⟨n, hn⟩ := hends
    rw [follow_eq_of_isKept hn]
    exact hn
  induction h.apply x with
  | intro x _ ih =>
    cases hx : isKept blocks x with
    | true => exact ⟨0, hx⟩
    | false =>
      obtain ⟨target, htarget⟩ := isKept_eq_false_iff.1 hx
      obtain ⟨n, hn⟩ := ih target htarget
      exact ⟨n + 1, (follow_succ_of_passes htarget n).symm ▸ hn⟩

/-! ### Folded blocks -/

def chartOf (blocks : Array Block) : Chart where
  items id := (blocks[id.index]?.map (·.items)).getD []
  exits id := (blocks[id.index]?.map (·.exits)).getD []

theorem items_of_passes (h : passes? blocks id = some target) : (chartOf blocks).items id = [] := by
  obtain ⟨block, hblock, -, -, hitems, -⟩ := passes?_eq_some_iff.1 h
  show (blocks[id.index]?.map _).getD [] = []
  rw [hblock]
  exact hitems

theorem exits_of_passes (h : passes? blocks id = some target) : (chartOf blocks).exits id = [target] := by
  obtain ⟨block, hblock, hexits, -⟩ := passes?_eq_some_iff.1 h
  show (blocks[id.index]?.map _).getD [] = [target]
  rw [hblock]
  exact hexits

theorem number?_eq_some_iff : number? blocks x = some x' ↔ isKept blocks x = true ∧
      (List.range x.index).countP (fun i => isKept blocks ⟨i⟩) = x'.index := by
  rw [number?]
  split
  · next h =>
    rw [Option.some.injEq]
    exact ⟨fun heq => ⟨h, heq ▸ rfl⟩, fun heq => congrArg BlockId.mk heq.2⟩
  · next h =>
    constructor
    · intro heq
      cases heq
    · rintro ⟨hkept, -⟩
      exact absurd hkept h

theorem number?_inj (hx : number? blocks x = some x') (hy : number? blocks y = some x') : x = y := by
  obtain ⟨hkeptx, hx⟩ := number?_eq_some_iff.1 hx
  obtain ⟨hkepty, hy⟩ := number?_eq_some_iff.1 hy
  have hlt : ∀ i l : Nat, i < l → isKept blocks ⟨i⟩ = true →
      (List.range i).countP (fun i => isKept blocks ⟨i⟩) < (List.range l).countP fun i => isKept blocks ⟨i⟩ := by
    intro i l hil hi
    have hsub := (range_sublist.2 (Nat.succ_le_of_lt hil)).countP_le (p := fun i => isKept blocks ⟨i⟩)
    rw [range_succ, countP_append, countP_singleton, if_pos hi] at hsub
    exact hsub
  rcases Nat.lt_trichotomy x.index y.index with h | h | h
  · have := hlt _ _ h hkeptx
    omega
  · exact congrArg BlockId.mk h
  · have := hlt _ _ h hkepty
    omega

/-- The place of an element among those that a filter on places keeps. -/
theorem getElem?_filter_zipIdx {α : Type} (l : List α) (p : Nat → Bool) {i : Nat} (hi : p i = true) :
    (l.zipIdx.filter fun q => p q.2)[(List.range i).countP p]? = l[i]?.map (·, i) := by
  have hlength : ∀ l : List α, (l.zipIdx.filter fun q => p q.2).length = (List.range l.length).countP p := by
    intro l
    rw [← countP_eq_length_filter, range_eq_range', ← zipIdx_map_snd, countP_map]
    rfl
  induction l using List.reverseRecOn with
  | nil => rfl
  | append_singleton l a ih =>
    rw [zipIdx_append, filter_append, zero_add]
    rcases Nat.lt_trichotomy i l.length with h | rfl | h
    · rw [List.getElem?_append_left h, ← ih]
      rw [List.getElem?_eq_getElem h] at ih
      exact List.getElem?_append_left (List.getElem?_eq_some_iff.1 ih).1
    · rw [List.getElem?_append_right (by rw [hlength]), hlength, Nat.sub_self,
        List.getElem?_append_right (Nat.le_refl _), Nat.sub_self]
      simp [hi]
    · have hsub := (range_sublist.2 (Nat.succ_le_of_lt h)).countP_le (p := p)
      have hnone : (l ++ [a])[i]? = none := by
        refine List.getElem?_eq_none ?_
        rw [length_append]
        exact h
      rw [hnone]
      refine List.getElem?_eq_none ?_
      rw [length_append, hlength]
      refine le_trans ?_ hsub
      rw [range_succ, countP_append, countP_singleton]
      by_cases hp : p l.length = true <;> simp [hp]

theorem getElem?_fold (h : number? blocks x = some x') :
    (fold blocks)[x'.index]? = blocks[x.index]?.map (foldBlock blocks) := by
  obtain ⟨hkept, hindex⟩ := number?_eq_some_iff.1 h
  have hplace := getElem?_filter_zipIdx blocks.toList (fun i => isKept blocks ⟨i⟩) hkept
  rw [fold, List.getElem?_toArray, List.getElem?_map, ← hindex, hplace, Array.getElem?_toList]
  rcases blocks[x.index]? with - | block <;> rfl

theorem items_chartOf_fold (h : number? blocks x = some x') :
    (chartOf (fold blocks)).items x' = (chartOf blocks).items x := by
  show ((fold blocks)[x'.index]?.map _).getD [] = (blocks[x.index]?.map _).getD []
  rw [getElem?_fold h]
  rcases blocks[x.index]? with - | block <;> rfl

theorem mem_firsts {ids : List BlockId} : id ∈ firsts ids ↔ id ∈ ids := by
  suffices h : ∀ seen : List BlockId, id ∈ ids.foldl (fun seen id => if id ∈ seen then seen else seen ++ [id]) seen ↔
      id ∈ seen ∨ id ∈ ids by
    rw [firsts, h, mem_nil_iff, false_or]
  induction ids with
  | nil => simp
  | cons i ids ih =>
    intro seen
    rw [foldl_cons, ih]
    split <;> grind

theorem mem_exits_chartOf_fold (h : number? blocks x = some x') :
    y' ∈ (chartOf (fold blocks)).exits x' ↔ ∃ y ∈ (chartOf blocks).exits x, folded? blocks y = some y' := by
  show y' ∈ ((fold blocks)[x'.index]?.map _).getD [] ↔ ∃ y ∈ (blocks[x.index]?.map _).getD [], _
  rw [getElem?_fold h]
  rcases blocks[x.index]? with - | block
  · simp
  · show y' ∈ firsts (block.exits.filterMap (folded? blocks)) ↔ _
    rw [mem_firsts, mem_filterMap]
    rfl

/-! ### Walks through folded blocks -/

variable {p q : Position} {xs : List Item}

theorem isKept_of_item (hi : ((chartOf blocks).items id)[k]? = some i) :
    isKept blocks id = true := by
  by_contra hdrop
  obtain ⟨target, htarget⟩ := isKept_eq_false_iff.1 (Bool.eq_false_iff.2 hdrop)
  rw [items_of_passes htarget] at hi
  cases hi

/-- A walk that ends in a block that is kept goes through the folded blocks as well. -/
theorem Walk.fold (hw : Walk (chartOf blocks) n p xs q) (hq : number? blocks q.block = some y') :
    ∃ m x' l, number? blocks (follow blocks m p.block) = some x' ∧
      Walk (chartOf (Flow.fold blocks)) l ⟨x', p.passed⟩ xs ⟨y', q.passed⟩ := by
  induction hw with
  | stay p => exact ⟨0, y', 0, hq, .stay _⟩
  | @item n k b i xs q hi _ ih =>
    obtain ⟨m, x', l, hx', hw⟩ := ih hq
    rw [follow_of_isKept (isKept_of_item hi)] at hx'
    refine ⟨0, x', l + 1, hx', .item ?_ hw⟩
    rw [items_chartOf_fold hx']
    exact hi
  | @exit n k b c xs q hk hc _ ih =>
    obtain ⟨m, x', l, hx', hw⟩ := ih hq
    have hkept' := (number?_eq_some_iff.1 hx').1
    cases hb : isKept blocks b with
    | true =>
      obtain ⟨b', hb'⟩ : ∃ b', number? blocks b = some b' := ⟨_, if_pos hb⟩
      refine ⟨0, b', l + 1, hb', .exit ?_ ((mem_exits_chartOf_fold hb').2 ⟨c, hc, ?_⟩) hw⟩
      · rw [items_chartOf_fold hb']
        exact hk
      · rw [folded?, follow_eq_of_isKept hkept']
        exact hx'
    | false =>
      obtain ⟨target, htarget⟩ := isKept_eq_false_iff.1 hb
      rw [exits_of_passes htarget, mem_singleton] at hc
      subst hc
      rw [items_of_passes htarget] at hk
      subst hk
      exact ⟨m + 1, x', l, by rw [follow_succ_of_passes htarget]; exact hx', hw⟩

/-- Nothing is evaluated on the way past dropped blocks. -/
theorem walk_follow (blocks : Array Block) (m : Nat) (id : BlockId) :
    ∃ n, Walk (chartOf blocks) n (startOf id) [] (startOf (follow blocks m id)) := by
  induction m generalizing id with
  | zero => exact ⟨0, .stay _⟩
  | succ m ih =>
    cases h : isKept blocks id with
    | true =>
      rw [follow_of_isKept h]
      exact ⟨0, .stay _⟩
    | false =>
      obtain ⟨target, htarget⟩ := isKept_eq_false_iff.1 h
      obtain ⟨n, hw⟩ := ih target
      rw [follow_succ_of_passes htarget]
      refine ⟨n + 1, .exit ?_ ?_ hw⟩
      · rw [items_of_passes htarget]
        rfl
      · rw [exits_of_passes htarget]
        exact mem_singleton_self target

/-- A walk through the folded blocks goes through the blocks. -/
theorem Walk.unfold (hw : Walk (chartOf (Flow.fold blocks)) n p xs q)
    (hp : number? blocks x = some p.block) (hq : number? blocks y = some q.block) :
    ∃ m, Walk (chartOf blocks) m ⟨x, p.passed⟩ xs ⟨y, q.passed⟩ := by
  induction hw generalizing x with
  | stay p =>
    cases number?_inj hp hq
    exact ⟨0, .stay _⟩
  | item hi _ ih =>
    obtain ⟨m, hw⟩ := ih hp hq
    rw [items_chartOf_fold hp] at hi
    exact ⟨m + 1, .item hi hw⟩
  | exit hk hc _ ih =>
    obtain ⟨c, hc, hfolded⟩ := (mem_exits_chartOf_fold hp).1 hc
    obtain ⟨m, hw⟩ := ih hfolded hq
    obtain ⟨l, hfollow⟩ := walk_follow blocks (blocks.size + 1) c
    obtain ⟨i, hi⟩ := hfollow.trans hw
    rw [items_chartOf_fold hp] at hk
    exact ⟨i + 1, .exit hk hc hi⟩

/-! ### Paths -/

def chart (flow : Flow) : Chart := ⟨flow.items, flow.exits⟩

theorem chart_eq (flow : Flow) : flow.chart = chartOf flow.blocks := by
  have hitems : flow.items = (chartOf flow.blocks).items := by
    funext id
    show flow.items id = (flow.blocks[id.index]?.map _).getD []
    rw [items]
    rcases flow.blocks[id.index]? with - | block <;> rfl
  have hexits : flow.exits = (chartOf flow.blocks).exits := by
    funext id
    show flow.exits id = (flow.blocks[id.index]?.map _).getD []
    rw [exits]
    rcases flow.blocks[id.index]? with - | block <;> rfl
  rw [chart, hitems, hexits]

variable {flow : Flow} {a b : BlockId} {items : List Item}

/-- From a block where control arrives a walk goes on along some path. -/
theorem Arrives.walk (hw : Walk flow.chart n p xs q) (h : flow.Arrives p.block items) :
    ∃ items', flow.Arrives q.block items' ∧
      items ++ ((flow.items p.block).take p.passed ++ xs) =
        items' ++ (flow.items q.block).take q.passed := by
  induction hw generalizing items with
  | stay p => exact ⟨items, h, by rw [append_nil]⟩
  | @item n k c i xs q hi _ ih =>
    obtain ⟨items', harrives, heq⟩ := ih h
    refine ⟨items', harrives, heq ▸ ?_⟩
    have htake : (flow.items c).take (k + 1) = (flow.items c).take k ++ [i] := by
      rw [take_add_one]
      exact congrArg _ (congrArg Option.toList hi)
    rw [htake, append_assoc]
    rfl
  | @exit n k c d xs q hk hd _ ih =>
    obtain ⟨items', harrives, heq⟩ := ih (h.step hd)
    refine ⟨items', harrives, heq ▸ ?_⟩
    have htake : (flow.items c).take k = flow.items c := by
      rw [hk]
      exact take_length
    rw [htake, take_zero, nil_append, append_assoc]

theorem arrives_iff_walk : flow.Arrives b items ↔ ∃ n, Walk flow.chart n (startOf flow.entry) items (startOf b) := by
  constructor
  · intro h
    induction h with
    | entry => exact ⟨0, .stay _⟩
    | @step a b items _ hexit ih =>
      obtain ⟨n, hw⟩ := ih
      have hitems := @walk_items flow.chart a [] (flow.items a) prefix_rfl
      rw [length_nil, zero_add] at hitems
      obtain ⟨m, hrest⟩ := hitems.trans (.exit rfl hexit (.stay (startOf b)))
      rw [append_nil] at hrest
      exact hw.trans hrest
  · rintro ⟨n, hw⟩
    obtain ⟨items', harrives, heq⟩ := Arrives.walk hw .entry
    simp only [startOf, take_zero, nil_append, append_nil] at harrives heq
    exact heq ▸ harrives

/-- Some path from the entry to the exit evaluates these items. -/
def Traverses (flow : Flow) (xs : List Item) : Prop :=
  ∃ items, flow.Arrives flow.exit items ∧ xs = items ++ flow.items flow.exit

/-! ### The first block -/

/-- The blocks of a body before they are folded. -/
def laidBlocks (fn : Bool) (ss : List Stmt) : Array Block :=
  ((Builder.body ss (.start fn)).fallTo last).blocks

theorem number?_last (blocks : Array Block) :
    ∃ x', number? blocks last = some x' := ⟨_, if_pos (isKept_last blocks)⟩

theorem Builder.Orderly.wellFounded_passes {b : Builder} (hb : b.Orderly) :
    WellFounded fun y x => passes? b.blocks x = some y := by
  refine Subrelation.wf (fun {y x} h => ?_) hb.onward
  obtain ⟨block, hblock, hexits, -, -, hheader, -⟩ := passes?_eq_some_iff.1 h
  refine ⟨?_, ?_⟩
  · rw [Builder.headerAt, hblock]
    exact hheader
  · rw [Builder.exitsAt, hblock]
    show y ∈ block.exits
    rw [hexits]
    exact mem_singleton_self y

/-- The chain of dropped blocks ends, from every block of a body. -/
theorem isKept_follow_laidBlocks (fn : Bool) (ss : List Stmt) (x : BlockId) :
    isKept (laidBlocks fn ss) (follow (laidBlocks fn ss) ((laidBlocks fn ss).size + 1) x) = true := by
  obtain ⟨K, hcomplete⟩ := Builder.exists_complete fn ss
  exact isKept_follow hcomplete.orderly.wellFounded_passes x

/-- Some block stands for the first one. -/
theorem folded?_first (fn : Bool) (ss : List Stmt) : ∃ x', folded? (laidBlocks fn ss) first = some x' :=
  ⟨_, if_pos (isKept_follow_laidBlocks fn ss first)⟩

/-! ### Paths and executions -/

theorem items_of_number? {fn : Bool} (hy : number? (laidBlocks fn ss) y = some y') :
    (finish (Builder.body ss (.start fn))).items y' = (chartOf (laidBlocks fn ss)).items y := by
  rw [← items_chartOf_fold hy]
  exact congrArg (fun G : Chart => G.items y') (chart_eq (finish (Builder.body ss (.start fn))))

/-- The paths through the flow graph of a body are the walks through its blocks. -/
theorem walk_finish_iff (fn : Bool) (hy : number? (laidBlocks fn ss) y = some y') :
    (∃ n, Walk (finish (Builder.body ss (.start fn))).chart n
        (startOf (finish (Builder.body ss (.start fn))).entry) xs ⟨y', k⟩) ↔
      ∃ n, Walk (chartOf (laidBlocks fn ss)) n (startOf first) xs ⟨y, k⟩ := by
  obtain ⟨x', hx'⟩ := folded?_first fn ss
  have hentry : (finish (Builder.body ss (.start fn))).entry = x' := by
    show (folded? (laidBlocks fn ss) first).getD ⟨0⟩ = x'
    rw [hx']
    rfl
  rw [chart_eq, hentry]
  show (∃ n, Walk (chartOf (fold (laidBlocks fn ss))) n _ _ _) ↔ _
  constructor
  · rintro ⟨n, hw⟩
    obtain ⟨m, hw⟩ := hw.unfold hx' hy
    obtain ⟨l, hfollow⟩ := walk_follow (laidBlocks fn ss) ((laidBlocks fn ss).size + 1) first
    exact hfollow.trans hw
  · rintro ⟨n, hw⟩
    obtain ⟨m, z, l, hz, hw⟩ := hw.fold hy
    change number? (laidBlocks fn ss) (follow (laidBlocks fn ss) m first) = some z at hz
    rw [folded?, follow_eq_of_isKept (number?_eq_some_iff.1 hz).1] at hx'
    cases hx'.symm.trans hz
    exact ⟨l, hw⟩

theorem traverses_finish_iff (fn : Bool) (hss : TryFreeAll ss) (xs : List Item) :
    (finish (Builder.body ss (.start fn))).Traverses xs ↔ Completes fn ss xs := by
  obtain ⟨y', hy'⟩ := number?_last (laidBlocks fn ss)
  set flow := finish (Builder.body ss (.start fn)) with hflow
  have hexit : flow.exit = y' := by
    show (number? (laidBlocks fn ss) last).getD ⟨0⟩ = y'
    rw [hy']
    rfl
  have hitems : flow.items flow.exit = [] := by
    obtain ⟨K, hcomplete⟩ := Builder.exists_complete fn ss
    rw [hexit, ← hcomplete.items]
    exact items_of_number? hy'
  refine Iff.trans ?_ ((walk_finish_iff fn hy').trans (Builder.walk_body_iff fn hss xs))
  show _ ↔ ∃ n, Walk flow.chart n (startOf flow.entry) xs (startOf y')
  rw [← hexit, ← arrives_iff_walk]
  constructor
  · rintro ⟨items, harrives, rfl⟩
    rw [hitems, append_nil]
    exact harrives
  · intro harrives
    exact ⟨xs, harrives, by rw [hitems, append_nil]⟩

/-- **Every item that is evaluated stands on a path**: the items before it are those along some path
to its block and those before it in the block. -/
theorem exists_arrives_of_executes (fn : Bool) (hss : TryFreeAll ss) {ys : List Item}
    {o : Outcome} (h : ExecutesAll fn false 0 ss (xs ++ i :: ys) o) :
    ∃ b items k, (finish (Builder.body ss (.start fn))).Arrives b items ∧
      ((finish (Builder.body ss (.start fn))).items b)[k]? = some i ∧
      xs = items ++ ((finish (Builder.body ss (.start fn))).items b).take k := by
  obtain ⟨n, q, hw, -⟩ := (Builder.behaves_body fn hss).runs _ _ h
  obtain ⟨m, ⟨y, k⟩, hbefore, hi⟩ := hw.before
  -- the block of the item is not empty, so it is kept
  have hi : ((chartOf (laidBlocks fn ss)).items y)[k]? = some i := hi
  obtain ⟨y', hy'⟩ : ∃ y', number? (laidBlocks fn ss) y = some y' :=
    ⟨_, number?_eq_some_iff.2 ⟨isKept_of_item hi, rfl⟩⟩
  obtain ⟨l, hfolded⟩ := (walk_finish_iff fn hy').2 ⟨m, hbefore⟩
  obtain ⟨items, harrives, heq⟩ := Arrives.walk hfolded .entry
  exact ⟨y', items, k, harrives, items_of_number? hy' ▸ hi, heq⟩

/-- **The paths through the flow graph of a body are its complete executions**: the items along the
paths from the entry to the exit are those that the executions evaluate which fall off the end or
return. -/
theorem paths_are_executions (body : List Stmt) (h : TryFreeAll body) (xs : List Item) :
    ((ofModule body).Traverses xs ↔ Completes false body xs) ∧
      ((ofFunction body).Traverses xs ↔ Completes true body xs) :=
  ⟨traverses_finish_iff false h xs, traverses_finish_iff true h xs⟩

/-- Found, or to be tried again. -/
def searchTest : Stmt := .ifThen 3 (.name 3 ⟨3⟩ "found") [.break 4] [.continue 5]

/-- A loop that is left by a `break`, or with its `else` clause. -/
def searchInner : Stmt := .whileLoop 2 (.name 2 ⟨2⟩ "ready") [searchTest] [.ret 6 none]

/-- A loop around it, which raises unless it is left by a `break`. -/
def searchOuter : Stmt :=
  .forLoop 1 (.name 1 ⟨0⟩ "box") (.name 1 ⟨1⟩ "boxes") [searchInner, .break 7] [.raise 8 none none]

/-- What is evaluated if the second try is successful. -/
def searchTrace : List Item :=
  [⟨1, .forIter ⟨0⟩ (.name 1 ⟨1⟩ "boxes")⟩, ⟨1, .forTarget ⟨0⟩ (.name 1 ⟨0⟩ "box")⟩,
   ⟨2, .test (.name 2 ⟨2⟩ "ready")⟩, ⟨3, .test (.name 3 ⟨3⟩ "found")⟩,
   ⟨2, .test (.name 2 ⟨2⟩ "ready")⟩, ⟨3, .test (.name 3 ⟨3⟩ "found")⟩,
   ⟨9, .simple (.expr 9 (.name 9 ⟨4⟩ "box"))⟩]

theorem paths_are_executions_search :
    TryFreeAll [searchOuter, .expr 9 (.name 9 ⟨4⟩ "box")] ∧
      (ofModule [searchOuter, .expr 9 (.name 9 ⟨4⟩ "box")]).Traverses searchTrace ∧
      (ofFunction [searchOuter, .expr 9 (.name 9 ⟨4⟩ "box")]).Traverses searchTrace := by
  have hfree : TryFreeAll [searchOuter, .expr 9 (.name 9 ⟨4⟩ "box")] := by
    simp [searchOuter, searchInner, searchTest, TryFreeAll, TryFree]
  have hsearch : ∀ fn, Completes fn [searchOuter, .expr 9 (.name 9 ⟨4⟩ "box")] searchTrace := by
    intro fn
    have hcontinue : ExecutesAll fn true 1 [searchTest] [⟨3, .test (.name 3 ⟨3⟩ "found")⟩] .continued :=
      .inr (.inr ⟨⟨[], .inr (.inr (.inr ⟨⟨rfl, rfl⟩, Outcome.noConfusion⟩)), rfl⟩, Outcome.noConfusion⟩)
    have hbreak : ExecutesAll fn true 1 [searchTest] [⟨3, .test (.name 3 ⟨3⟩ "found")⟩] .broke :=
      .inr (.inr ⟨⟨[], .inl (.inr (.inr ⟨⟨rfl, rfl⟩, Outcome.noConfusion⟩)), rfl⟩, Outcome.noConfusion⟩)
    have hinner : Executes fn true 1 searchInner _ .normal := .again hcontinue (.inr rfl) (.broke hbreak)
    have hround : ExecutesAll fn true 1 [searchInner, .break 7] _ .broke :=
      .inr (.inl ⟨_, [], hinner, .inr (.inr ⟨⟨rfl, rfl⟩, Outcome.noConfusion⟩), rfl⟩)
    have houter : Executes fn false 0 searchOuter _ .normal := ⟨_, .broke hround, rfl⟩
    exact .inl (.inr (.inl ⟨_, _, houter, .inr (.inl ⟨_, [], ⟨rfl, rfl⟩, .inr ⟨rfl, rfl⟩, rfl⟩), rfl⟩))
  exact ⟨hfree, (paths_are_executions _ hfree _).1.2 (hsearch false),
    (paths_are_executions _ hfree _).2.2 (hsearch true)⟩

end FlowTyping.Flow
