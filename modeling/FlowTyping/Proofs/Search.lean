/-
What a depth-first search finds, and in which order.

`Reaches` is a chain of steps from a vertex to one of its successors.  A successor of a vertex that
the search for one vertex has seen is itself seen or waits on the stack (`Closed`), so `reaches`
finds a vertex exactly if it can be reached (`reaches_iff`).  The order of `preorder` is that of the
search by recursion (`DepthFirst`), although the stack may hold a vertex several times; so it lists
exactly the vertices that can be reached (`mem_preorder_iff`), each of them once (`nodup_preorder`).
-/
import Mathlib
import FlowTyping.Search

namespace FlowTyping.Search

open List

variable {graph : List (List Nat)} {seen stack next : List Nat} {v start goal : Nat}

def Edge (graph : List (List Nat)) (v w : Nat) : Prop := w ∈ successors graph v

abbrev Reaches (graph : List (List Nat)) : Nat → Nat → Prop := Relation.ReflTransGen (Edge graph)

/-- Whatever can be reached in one step from a vertex that was seen is seen or waits. -/
def Closed (graph : List (List Nat)) (seen stack : List Nat) : Prop :=
  ∀ a ∈ seen, ∀ b, Edge graph a b → b ∈ seen ∨ b ∈ stack

theorem closed_nil (graph : List (List Nat)) (stack : List Nat) : Closed graph [] stack :=
  fun _ ha => absurd ha not_mem_nil

theorem Closed.again (h : Closed graph seen (v :: stack)) (hv : v ∈ seen) : Closed graph seen stack := by
  intro a ha b hab
  rcases h a ha b hab with hb | hb
  · exact .inl hb
  · rcases mem_cons.1 hb with rfl | hb
    · exact .inl hv
    · exact .inr hb

theorem Closed.visit (h : Closed graph seen (v :: stack)) (hnext : ∀ b, Edge graph v b → b ∈ v :: seen ∨ b ∈ next) :
    Closed graph (v :: seen) (next ++ stack) := by
  intro a ha b hab
  rcases mem_cons.1 ha with rfl | ha
  · exact (hnext b hab).imp_right (mem_append_left stack)
  · rcases h a ha b hab with hb | hb
    · exact .inl (mem_cons_of_mem v hb)
    · rcases mem_cons.1 hb with rfl | hb
      · exact .inl mem_cons_self
      · exact .inr (mem_append_right next hb)

/-! ### Searching for one vertex -/

/-- From a vertex that was seen, the way to one that was not leads past the stack. -/
theorem Closed.exists_waiting (h : Closed graph seen stack) (hgoal : goal ∉ seen) (hv : v ∈ seen)
    (hreach : Reaches graph v goal) : ∃ w ∈ stack, Reaches graph w goal := by
  induction hreach using Relation.ReflTransGen.head_induction_on with
  | refl => exact absurd hv hgoal
  | @head a b hedge hrest ih =>
    by_cases hb : b ∈ seen
    · exact ih hb
    · exact ⟨b, (h a hv b hedge).resolve_left hb, hrest⟩

theorem reachesFrom_iff (hclosed : Closed graph seen stack) (hgoal : goal ∉ seen) :
    reachesFrom graph goal seen stack = true ↔ ∃ w ∈ stack, Reaches graph w goal := by
  fun_induction reachesFrom graph goal seen stack with
  | case1 seen => simp
  | case2 seen stack => exact iff_of_true rfl ⟨goal, mem_cons_self, .refl⟩
  | case3 seen b stack hne hseen ih =>
    rw [ih (hclosed.again hseen) hgoal]
    constructor
    · rintro ⟨w, hw, h⟩
      exact ⟨w, mem_cons_of_mem b hw, h⟩
    · rintro ⟨w, hw, h⟩
      rcases mem_cons.1 hw with rfl | hw
      -- what is seen again reaches the goal past something else that waits
      · exact (hclosed.again hseen).exists_waiting hgoal hseen h
      · exact ⟨w, hw, h⟩
  | case4 seen b stack hne hnew ih =>
    rw [ih (hclosed.visit fun c hc => .inr (mem_reverse.2 hc)) (by simp [hgoal, Ne.symm hne])]
    constructor
    · rintro ⟨w, hw, h⟩
      rcases mem_append.1 hw with hw | hw
      · exact ⟨b, mem_cons_self, .head (mem_reverse.1 hw) h⟩
      · exact ⟨w, mem_cons_of_mem b hw, h⟩
    · rintro ⟨w, hw, h⟩
      rcases mem_cons.1 hw with rfl | hw
      · rcases h.cases_head with rfl | ⟨c, hedge, hrest⟩
        · exact absurd rfl hne
        · exact ⟨c, mem_append_left _ (mem_reverse.2 hedge), hrest⟩
      · exact ⟨w, mem_append_right _ hw, h⟩

/-- **The search succeeds exactly if there is a way.** -/
theorem reaches_iff : reaches graph start goal = true ↔ Reaches graph start goal := by
  rw [reaches, reachesFrom_iff (closed_nil graph _) not_mem_nil]
  simp

/-- The ways between the numbers of things are the ways between the things. -/
theorem reaches_index_iff {α : Type} {f : α → Nat} (hf : Function.Injective f) {next : α → List α}
    (hnext : ∀ a, successors graph (f a) = (next a).map f) {a b : α} :
    Reaches graph (f a) (f b) ↔ Relation.ReflTransGen (fun a b => b ∈ next a) a b := by
  constructor
  · have hall : ∀ j, Reaches graph (f a) j → ∃ b, f b = j ∧ Relation.ReflTransGen (fun a b => b ∈ next a) a b := by
      intro j h
      induction h with
      | refl => exact ⟨a, rfl, .refl⟩
      | tail _ hedge ih =>
        obtain ⟨b, rfl, hway⟩ := ih
        rw [Edge, hnext] at hedge
        obtain ⟨c, hc, rfl⟩ := mem_map.1 hedge
        exact ⟨c, rfl, hway.tail hc⟩
    intro h
    obtain ⟨c, hc, hway⟩ := hall _ h
    exact hf hc ▸ hway
  · refine fun h => h.lift f fun a b hb => ?_
    show _ ∈ successors graph (f a)
    rw [hnext]
    exact mem_map_of_mem hb

/-! ### The order of the search -/

/-- The search by recursion: after the vertices of `order`, the listed vertices are visited one
after the other, each before its successors, and `order'` is the order in which all of them came up.
-/
inductive DepthFirst {α : Type} (next : α → List α) : List α → List α → List α → Prop
  | done (order : List α) : DepthFirst next order [] order
  | again {b : α} {bs order order' : List α} (hb : b ∈ order)
      (h : DepthFirst next order bs order') : DepthFirst next order (b :: bs) order'
  | visit {b : α} {bs order inner order' : List α} (hb : b ∉ order)
      (hinner : DepthFirst next (order ++ [b]) (next b) inner) (h : DepthFirst next inner bs order') :
      DepthFirst next order (b :: bs) order'

namespace DepthFirst

variable {α β : Type} {next : α → List α} {bs bs' order order' order₂ : List α}

section

variable (h : DepthFirst next order bs order')
include h

theorem isPrefix : order <+: order' := by
  induction h with
  | done order => exact prefix_rfl
  | again _ _ ih => exact ih
  | visit _ _ _ ihinner ih => exact ((prefix_append _ _).trans ihinner).trans ih

theorem unique (h' : DepthFirst next order bs order₂) : order₂ = order' := by
  induction h generalizing order₂ with
  | done order =>
    cases h'
    rfl
  | again hb _ ih =>
    cases h' with
    | again _ h' => exact ih h'
    | visit hb' => exact absurd hb hb'
  | visit hb _ _ ihinner ih =>
    cases h' with
    | again hb' => exact absurd hb' hb
    | visit _ hinner' h' =>
      cases ihinner hinner'
      exact ih h'

theorem nodup (horder : order.Nodup) : order'.Nodup := by
  induction h with
  | done order => exact horder
  | again _ _ ih => exact ih horder
  | visit hb _ _ ihinner ih => exact ih (ihinner (nodup_append_comm.1 (nodup_cons.2 ⟨hb, horder⟩)))

theorem closes :
    (∀ b ∈ bs, b ∈ order') ∧ ∀ a ∈ order', a ∈ order ∨ ∀ b ∈ next a, b ∈ order' := by
  induction h with
  | done order => exact ⟨forall_mem_nil _, fun _ ha => .inl ha⟩
  | again hb h ih => exact ⟨forall_mem_cons.2 ⟨h.isPrefix.subset hb, ih.1⟩, ih.2⟩
  | visit hb hinner h ihinner ih =>
    have hvisited := hinner.isPrefix.subset (mem_append_right _ mem_cons_self)
    refine ⟨forall_mem_cons.2 ⟨h.isPrefix.subset hvisited, ih.1⟩, fun a ha => ?_⟩
    rcases ih.2 a ha with ha | ha
    · rcases ihinner.2 a ha with ha | ha
      · rcases mem_append.1 ha with ha | ha
        · exact .inl ha
        · cases mem_singleton.1 ha
          exact .inr fun c hc => h.isPrefix.subset (ihinner.1 c hc)
      · exact .inr fun c hc => h.isPrefix.subset (ha c hc)
    · exact .inr ha

end

/-- What is handed on from a vertex to its successors holds of every vertex when the search comes to
it. -/
theorem found {P : List α → α → Prop} (hmono : ∀ {l l' b}, l <+: l' → P l b → P l' b)
    (hstep : ∀ {l b c}, P l b → c ∈ next b → P (l ++ [b]) c) (h : DepthFirst next order bs order')
    (hbs : ∀ b ∈ bs, P order b) {before : List α} {c : α} (hc : before ++ [c] <+: order') :
    before ++ [c] <+: order ∨ P before c := by
  induction h with
  | done order => exact .inl hc
  | again _ _ ih => exact ih (forall_mem_cons.1 hbs).2 hc
  | visit hb hinner h ihinner ih =>
    obtain ⟨hfirst, hrest⟩ := forall_mem_cons.1 hbs
    have hwider := (prefix_append _ _).trans hinner.isPrefix
    rcases ih (fun d hd => hmono hwider (hrest d hd)) hc with hc | hc
    · rcases ihinner (fun d hd => hstep hfirst hd) hc with hc | hc
      · rcases prefix_concat_iff.1 hc with heq | hc
        · obtain ⟨rfl, hlast⟩ := append_inj' heq rfl
          cases hlast
          exact .inr hfirst
        · exact .inl hc
      · exact .inr hc
    · exact .inr hc

/-- Vertices that have been visited may be left out. -/
theorem of_filter {p : α → Bool} (hp : ∀ b ∈ bs, p b = false → b ∈ order)
    (h : DepthFirst next order (bs.filter p ++ bs') order') :
    ∃ inner, DepthFirst next order bs inner ∧ DepthFirst next inner bs' order' := by
  induction bs generalizing order with
  | nil => exact ⟨order, .done order, h⟩
  | cons b bs ih =>
    obtain ⟨hb, hbs⟩ := forall_mem_cons.1 hp
    cases hpb : p b with
    | false =>
      rw [filter_cons_of_neg (Bool.eq_false_iff.1 hpb)] at h
      obtain ⟨inner, hfirst, hrest⟩ := ih hbs h
      exact ⟨inner, .again (hb hpb) hfirst, hrest⟩
    | true =>
      rw [filter_cons_of_pos hpb] at h
      cases h with
      | again hmem h =>
        obtain ⟨inner, hfirst, hrest⟩ := ih hbs h
        exact ⟨inner, .again hmem hfirst, hrest⟩
      | visit hmem hinner h =>
        obtain ⟨inner, hfirst, hrest⟩ := ih (fun c hc hpc =>
          hinner.isPrefix.subset (mem_append_left _ (hbs c hc hpc))) h
        exact ⟨inner, .visit hmem hinner hfirst, hrest⟩

theorem map {f : α → β} (hf : Function.Injective f) {next' : β → List β} (hnext : ∀ a, next' (f a) = (next a).map f)
    (h : DepthFirst next order bs order') : DepthFirst next' (order.map f) (bs.map f) (order'.map f) := by
  induction h with
  | done order => exact .done _
  | again hb _ ih => exact .again (mem_map_of_mem hb) ih
  | visit hb _ _ ihinner ih =>
    rw [map_append, ← hnext] at ihinner
    exact .visit (fun hmem => hb ((mem_map_of_injective hf).1 hmem)) ihinner ih

end DepthFirst

/-- **The stack does what the recursion does.** -/
theorem depthFirst_preorderFrom (graph : List (List Nat)) (seen stack : List Nat) :
    DepthFirst (successors graph) seen.reverse stack (preorderFrom graph seen stack) := by
  fun_induction preorderFrom graph seen stack with
  | case1 seen => exact .done _
  | case2 seen b stack hb ih => exact .again (mem_reverse.2 hb) ih
  | case3 seen b stack hb next ih =>
    have hseen : ∀ c ∈ successors graph b, decide (c ∉ b :: seen) = false → c ∈ (b :: seen).reverse := fun c _ hc =>
      mem_reverse.2 (not_not.1 (decide_eq_false_iff_not.1 hc))
    obtain ⟨inner, hfirst, hrest⟩ := DepthFirst.of_filter hseen ih
    rw [reverse_cons] at hfirst
    exact .visit (fun hmem => hb (mem_reverse.1 hmem)) hfirst hrest

theorem nodup_preorder (graph : List (List Nat)) (start : Nat) : (preorder graph start).Nodup :=
  (depthFirst_preorderFrom graph [] [start]).nodup nodup_nil

/-- **The search finds exactly what can be reached.** -/
theorem mem_preorder_iff : v ∈ preorder graph start ↔ Reaches graph start v := by
  have hsearch := depthFirst_preorderFrom graph [] [start]
  constructor
  · intro h
    obtain ⟨before, after, heq⟩ := append_of_mem h
    have hprefix : before ++ [v] <+: preorder graph start := ⟨after, by rw [heq, append_assoc, singleton_append]⟩
    refine (hsearch.found (P := fun _ => Reaches graph start) (fun _ h => h) (fun h hc => h.tail hc)
      (forall_mem_singleton.2 .refl) hprefix).resolve_left fun hnil => ?_
    simpa using prefix_nil.1 hnil
  · intro h
    induction h with
    | refl => exact hsearch.closes.1 start mem_cons_self
    | tail _ hedge ih => exact (hsearch.closes.2 _ ih).resolve_left not_mem_nil _ hedge

end FlowTyping.Search
