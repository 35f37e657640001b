/-
What folding does to the blocks of a body.

A block is dropped only if it is empty and leads to exactly one other block, so no item is lost
(`items_fold`), and the finished flow graph of a body holds the items of its statements, each once
(`items_ofBody`).
-/
import FlowTyping.Flow.Layout
import FlowTyping.Proofs.Flow.Layout

namespace FlowTyping.Flow

open List

/-! ### Items -/

variable {blocks : Array Block} {id target : BlockId}

theorem passes?_eq_some_iff :
    passes? blocks id = some target ↔ ∃ block, blocks[id.index]? = some block ∧
      block.exits = [target] ∧ id ≠ last ∧ block.items = [] ∧ block.isLoopHeader = false ∧ target ≠ id := by
  rw [passes?]
  rcases blocks[id.index]? with - | block
  · simp
  · rcases hexits : block.exits with - | ⟨t, - | ⟨u, us⟩⟩
    · simp [hexits]
    · simp only [Option.some.injEq, exists_eq_left', hexits, List.cons.injEq, and_true]
      split <;> grind
    · simp [hexits]

theorem items_of_not_isKept {block : Block} (h : blocks[id.index]? = some block)
    (hkept : isKept blocks id = false) : block.items = [] := by
  obtain ⟨target, htarget⟩ := Option.isSome_iff_exists.1 (Option.isNone_eq_false_iff.1 hkept)
  obtain ⟨block', hblock', -, -, hitems, -⟩ := passes?_eq_some_iff.1 htarget
  cases h.symm.trans hblock'
  exact hitems

theorem items_fold (blocks : Array Block) :
    (fold blocks).toList.flatMap (·.items) = blocks.toList.flatMap (·.items) := by
  have hkept : ∀ l : List (Block × Nat), (∀ p ∈ l, blocks[p.2]? = some p.1) →
      (l.filter fun p => isKept blocks ⟨p.2⟩).flatMap (fun p => p.1.items) =
        l.flatMap fun p => p.1.items := by
    intro l hl
    induction l with
    | nil => rfl
    | cons p l ih =>
      have htail := ih fun q hq => hl q (mem_cons_of_mem _ hq)
      rw [filter_cons, flatMap_cons, ← htail]
      split
      · rw [flatMap_cons]
      · next hdrop =>
        have hitems : p.1.items = [] := @items_of_not_isKept _ ⟨p.2⟩ _ (hl p mem_cons_self)
          (Bool.eq_false_iff.2 hdrop)
        rw [hitems, nil_append]
  have hzip := hkept blocks.toList.zipIdx fun p hp => by
    rw [← Array.getElem?_toList]
    exact mk_mem_zipIdx_iff_getElem?.1 hp
  calc (fold blocks).toList.flatMap (·.items)
      = (blocks.toList.zipIdx.filter fun p => isKept blocks ⟨p.2⟩).flatMap fun p => p.1.items := by
        rw [fold, toList_toArray, flatMap_map]
        rfl
    _ = blocks.toList.zipIdx.flatMap fun p => p.1.items := hzip
    _ = blocks.toList.flatMap (·.items) := by
        rw [← flatMap_map (f := Prod.fst) (g := fun block : Block => block.items),
          zipIdx_map_fst]

theorem items_laidOut (fn : Bool) (ss : List Stmt) :
    ((finish (Builder.body ss (.start fn))).blocks.toList.flatMap (·.items)).Perm
      (itemsOfAll fn 0 ss) := by
  show ((fold ((Builder.body ss (.start fn)).fallTo last).blocks).toList.flatMap (·.items)).Perm _
  rw [items_fold]
  exact (Builder.laid_body fn ss).perm

/-- The statements of a body in the order in which they are laid out. -/
def laidOut (body : Body) : List Stmt :=
  match body.kind with
  | .classBody => constructorsFirst body.stmts
  | _ => body.stmts

theorem laidOut_perm (body : Body) : (laidOut body).Perm body.stmts := by
  rw [laidOut]
  split
  · exact filter_append_perm _ _
  · rfl

theorem items_ofBody (body : Body) : ((ofBody body).blocks.toList.flatMap (·.items)).Perm
      (itemsOfAll (body.kind = .function) 0 (laidOut body)) := by
  obtain ⟨path, kind, params, ss⟩ := body
  cases kind with
  | module => exact items_laidOut false ss
  | function => exact items_laidOut true ss
  | classBody => exact items_laidOut false (constructorsFirst ss)

end FlowTyping.Flow
