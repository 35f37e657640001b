/-
An analysis beside another one.

One and the same module is analysed twice, over a graph of its own and over a graph that holds other
things as well.  The numbers of the first analysis are paired with those that they have in the copy
(`Graph.renamed`).  A request that is paired is then the same request under new numbers, and the two
graphs go on standing beside each other when it is answered, so the two analyses form a twin
(`Twin.beside`).
-/
import FlowTyping.Proofs.Twin.Single

namespace FlowTyping

open FlowTyping.Graph (Request Later)

variable {ρ ρ' σ σ' : Renaming} {a b g g' h : Graph} {t : Ty} {r : Request}

namespace Graph

/-! ### Two graphs beside each other -/

/-- A graph beside another one that rests, whose numbers have not changed since they were renamed
first. -/
structure Alongside (ρ : Renaming) (a : Graph) (σ : Renaming) (b h : Graph) : Prop where
  beside : ∃ ρ', ρ.Agree ρ' a ∧ Beside ρ' σ a b h
  resting : a.Sound
  sound : b.Sound
  whole : h.Sound

namespace Alongside

variable (hl : Alongside ρ a σ b h)
include hl

theorem copy : Copy σ b h := by
  obtain ⟨ρ', -, hb⟩ := hl.beside
  exact hb.right

theorem clean : b.Clean := by
  obtain ⟨ρ', -, hb⟩ := hl.beside
  exact hb.rightClean

/-- **The common graph answers a request as the graph itself does.**  If the request is for no
constant, then the numbers that it adds belong together because they come next on both sides. -/
theorem request (hr : r.Given b) (hspares : r.Spares b)
    (hconstant : ∀ t, r ≠ .constant t) (hrepropagate : r ≠ .repropagate) :
    ∃ σ', Alongside ρ a σ' (r.run b) ((σ.request r).run h) ∧ σ.Agree σ' (r.change b) := by
  obtain ⟨ρ₁, hρ₁, hb⟩ := hl.beside
  obtain ⟨ρ₂, σ', hb', hρ₂, hσ⟩ :=
    hb.request hl.resting.idle hl.sound hl.whole hr hspares hconstant hrepropagate
  exact ⟨σ', ⟨⟨ρ₂, hρ₁.trans hρ₂, hb'⟩, hl.resting, (hl.sound.request hr).sound,
    (hl.whole.request (hl.copy.given hr)).sound⟩, hσ⟩

theorem constant (ht : b.HasType t) :
    ∃ σ', Alongside ρ a σ' (b.constant t).2 (h.constant (σ.ty t)).2 ∧ σ.Agree σ' b ∧
      σ'.node (b.constant t).1 = (h.constant (σ.ty t)).1 := by
  obtain ⟨ρ₁, hρ₁, hb⟩ := hl.beside
  obtain ⟨ρ₂, σ', hb', hρ₂, hσ, hnode⟩ := hb.constant hl.sound hl.whole ht
  have hgiven : Request.Given h (.constant (σ.ty t)) := hl.copy.hasType ht
  exact ⟨σ', ⟨⟨ρ₂, hρ₁.trans hρ₂, hb'⟩, hl.resting, (hl.sound.request (r := .constant t) ht).sound,
    (hl.whole.request hgiven).sound⟩, hσ, hnode⟩

theorem grows (hr : r.Given b) (hagree : σ.Agree σ' b) :
    (b.renamed σ).Grows ((r.run b).renamed σ') :=
  (hl.sound.request hr).later.renamed hagree fun _ hid hs => hs.of_request hid

theorem answer (hr : r.Given b) (hspares : r.Spares b) (hrepropagate : r ≠ .repropagate) :
    ∃ σ', Alongside ρ a σ' (r.run b) ((σ.request r).run h) ∧ σ.Agree σ' b ∧
      ((r.run b).renamed σ').Answered b h r (σ.request r) := by
  have hanswered := (Since.refl hl.sound hl.clean).answered hr
  by_cases hconstant : ∃ t, r = .constant t
  · obtain ⟨t, rfl⟩ := hconstant
    obtain ⟨σ', hl', hσ, hnode⟩ := hl.constant hr
    exact ⟨σ', hl', hσ, hnode, hanswered.2⟩
  · obtain ⟨σ', hl', hσ⟩ := hl.request hr hspares (fun t ht => hconstant ⟨t, ht⟩) hrepropagate
    refine ⟨σ', hl', hσ.earlier (hl.sound.prepared_change hr).later, ?_⟩
    cases r with
    | add rule line =>
      exact ⟨(hσ.node (b.hasNode_push_next rule line)).trans hl.copy.node_next, hanswered.2⟩
    | addClass name line =>
      refine ⟨(hσ.ofClass ?_).trans hl.copy.nextClass_eq, hanswered.2⟩
      show b.classes.size < (b.withClass name line).classes.size
      rw [classes_withClass, Array.size_push]
      exact Nat.lt_succ_self _
    | addFunction info =>
      exact ⟨(hσ.ofFunction hanswered.2).trans hl.copy.nextFunction_eq, hanswered.2⟩
    | constant t => exact absurd ⟨t, rfl⟩ hconstant
    | _ => exact trivial

end Alongside

/-! ### What an analysis reads off the graphs -/

namespace Mirror

open Inference

theorem knownKinds? (hm : Mirror ρ g h) (id : NodeId) :
    Inference.knownKinds? (h.types (ρ.node id)) = Inference.knownKinds? (g.types id) := by
  unfold Inference.knownKinds?
  rw [hm.types, ρ.isEmpty_types, ρ.hasAny_types, ρ.kinds?_types]

theorem parameterKinds? (hm : Mirror ρ g h) (f : FunctionId) (position : Nat) :
    Inference.parameterKinds? h (ρ.ofFunction f) position = Inference.parameterKinds? g f position := by
  unfold Inference.parameterKinds?
  rw [hm.function?]
  rcases g.function? f with - | info
  · rfl
  · show (((info.params.map ρ.param).filter (·.mode = .positional))[position]?.bind _) =
      ((info.params.filter (·.mode = .positional))[position]?.bind _)
    rw [List.filter_map, List.getElem?_map, Option.bind_map]
    show ((info.params.filter (·.mode = .positional))[position]?.bind _) = _
    congr 1
    funext param
    exact hm.knownKinds? param.node

theorem acceptedKinds? (hm : Mirror ρ g h) (position : Nat) (t : Ty) :
    Inference.acceptedKinds? h position (ρ.ty t) = Inference.acceptedKinds? g position t := by
  cases t with
  | function f => exact hm.parameterKinds? f position
  | method f => exact hm.parameterKinds? f (position + 1)
  | _ => rfl

theorem acceptedByAll? (hm : Mirror ρ g h) (position : Nat) (id : NodeId) :
    Inference.acceptedByAll? h position (h.types (ρ.node id)).toList =
      Inference.acceptedByAll? g position (g.types id).toList := by
  have hall : ∀ ts : List Ty, (ts.map ρ.ty).mapM (Inference.acceptedKinds? h position) =
      ts.mapM (Inference.acceptedKinds? g position) := by
    intro ts
    induction ts with
    | nil => rfl
    | cons t ts ih => rw [List.map_cons, List.mapM_cons, List.mapM_cons, hm.acceptedKinds?, ih]
  unfold Inference.acceptedByAll?
  rw [hm.types, ρ.toList_types, List.isEmpty_map, hall]

end Mirror

end Graph

/-! ### The twin -/

open Inference

/-- Nodes that exist are paired with what they are renamed to. -/
theorem Graph.forall₂_renamed {is : List NodeId} (h : ∀ i ∈ is, g.HasNode i) :
    List.Forall₂ (g.renamed ρ).node is (is.map ρ.node) := by
  rw [List.forall₂_map_right_iff, List.forall₂_same]
  exact fun i hi => ⟨rfl, h i hi⟩

/-- An analysis over a graph of its own, and the same analysis over a graph that stands for another
one as well. -/
def Twin.beside (left right : Context) (hagrees : left.Agrees right) (ρ : Renaming) (a : Graph) : Twin where
  left := left
  right := right
  agrees := hagrees
  graphs w b h := ∃ σ, Graph.Alongside ρ a σ b h ∧ w = b.renamed σ
  node_of_receiver := by
    rintro w b h i j ⟨σ, -, rfl⟩ hij
    exact ⟨hij.1, hij.2.1⟩
  node_inj := by
    rintro w b h i j i' j' ⟨σ, -, rfl⟩ ⟨rfl, -⟩ ⟨rfl, -⟩
    exact σ.node_inj.symm
  run := by
    rintro w b h r r' ⟨σ, hl, rfl⟩ hmatch
    have hrepropagate : r ≠ .repropagate := by
      rintro rfl
      cases hmatch
    obtain rfl := (hmatch.mono (b.renamed_pairs σ)).renamed
    obtain ⟨hr, hspares⟩ := (b.renamed_within σ).proper hmatch
    obtain ⟨σ', hl', hagree, hanswered⟩ := hl.answer hr hspares hrepropagate
    exact ⟨_, hl.grows hr hagree, ⟨σ', hl', rfl⟩, hanswered⟩
  classNodes := by
    rintro w b h c d ⟨σ, hl, rfl⟩ ⟨rfl, hc⟩
    obtain ⟨info, hinfo⟩ := Graph.class?_isSome hc
    rw [hl.copy.mirror.classNodes]
    refine Graph.forall₂_renamed fun i hi => ?_
    rw [Graph.classNodes_eq hinfo] at hi
    exact List.mem_singleton.1 hi ▸ hl.sound.valid.hasNode_class hinfo
  returns := by
    rintro w b h f k ⟨σ, hl, rfl⟩ ⟨rfl, hf⟩
    have hinfo : b.function? f = some b.functions[f.index] := Array.getElem?_eq_getElem hf
    rw [hl.copy.function?, hinfo]
    exact .some ⟨rfl, hl.sound.valid.functions f _ hinfo, hl.clean.returns f _ hinfo⟩
  exported := by
    rintro w b h m n ⟨σ, hl, rfl⟩ ⟨rfl, hm⟩ name
    rw [hl.copy.module?]
    rcases hinfo : b.module? m with - | info
    · exact .none
    · show Option.Rel _ (info.exports.get? name) ((info.exports.mapValues σ.node).get? name)
      rw [Table.get?_mapValues]
      rcases hget : info.exports.get? name with - | node
      · exact .none
      · exact .some ⟨rfl, (hl.sound.valid.modules m info hinfo).exported _
          (Table.mem_entries_of_get? hget)⟩
  knownKinds := by
    rintro w b h i j ⟨σ, hl, rfl⟩ ⟨rfl, -⟩
    exact hl.copy.mirror.knownKinds? i
  accepted := by
    rintro w b h i j ⟨σ, hl, rfl⟩ ⟨rfl, -⟩ position
    exact hl.copy.mirror.acceptedByAll? position i

end FlowTyping
