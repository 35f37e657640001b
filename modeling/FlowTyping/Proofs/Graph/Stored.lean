/-
Functions in attributes of instances.

An attribute that is written on an instance is a member of the class like those of its body, and a
read through an instance binds every function that it finds there, unless it is a static method.  So
a function that was stored in an attribute comes back as a method (`stored_functions_are_bound`),
and a call with an argument for each of its parameters has one argument too many.
-/
import FlowTyping.Proofs.Graph.Request

namespace FlowTyping

open List

namespace Signature

variable {params : List Param} {p : Progress} {args : List Argument}

/-- Positional arguments cannot outnumber the parameters that take one each. -/
theorem takeAll?_eq_none {positional : List Param} (hargs : ∀ a ∈ args, a.passing = .positional)
    (hrest : has .varPositional params = false) (hnext : p.next ≤ positional.length)
    (hmany : positional.length < p.next + args.length) : takeAll? params positional p args = none := by
  induction args generalizing p with
  | nil => exact absurd hmany (Nat.not_lt_of_le hnext)
  | cons a args ih =>
    rw [forall_mem_cons] at hargs
    simp only [takeAll?, take?, hargs.1]
    cases hparam : positional[p.next]? with
    | none => simp [hrest]
    | some param =>
      have hlt := (List.getElem?_eq_some_iff.1 hparam).1
      have hmany' : positional.length < p.next + 1 + args.length := by
        rw [length_cons] at hmany
        omega
      exact ih hargs.2 hlt hmany'

/-- With the receiver supplied, an argument for each positional parameter is one too many. -/
theorem bind?_bound_eq_none (hargs : ∀ a ∈ args, a.passing = .positional)
    (hrest : has .varPositional params = false) (hsome : args ≠ [])
    (hlength : args.length = (positional params false).length) : bind? params args true = none := by
  have hpos := length_pos_of_ne_nil hsome
  rw [bind?, takeAll?_eq_none hargs hrest (Nat.zero_le _)]
  simp only [positional, Bool.false_eq_true, if_false, drop_zero, if_true, length_drop, Progress.start] at hlength ⊢
  omega

end Signature

namespace Graph

variable {g : Graph} {id object : NodeId} {attr : String} {c : ClassId} {member : Member}
  {f : FunctionId} {info : FunctionInfo} {t : Ty}

theorem mem_attributeOf_instance (h : g.member? c attr = some member) :
    t ∈ (g.attributeOf attr (.instanceOf c)).types ↔
      ∃ u ∈ g.types member.node, t ∈ (g.throughInstance u).types := by
  simp only [attributeOf, h]
  show t ∈ (Finding.join _).types ↔ _
  simp only [Finding.mem_types_join, mem_map, exists_exists_and_eq_and]
  rfl

theorem function_mem_throughInstance {u : Ty} : .function f ∈ (g.throughInstance u).types ↔
    u = .function f ∧ g.role? f = some .staticMethod ∨
      ∃ p info, u = .function p ∧ g.function? p = some info ∧ info.role = .property ∧
        .function f ∈ g.types info.returns := by
  cases u with
  | function p =>
    unfold throughInstance role?
    cases hp : g.function? p with
    | none =>
      simp [hp]
      grind
    | some info => rcases hrole : info.role <;> simp [hp, hrole, returned] <;> grind
  | _ => simp [throughInstance]

/-- **Functions in attributes are bound like methods.** -/
theorem stored_functions_are_bound (hg : Reachable g) (hrule : g.rule? id = some (.read object attr))
    (hmodules : ∀ m, .moduleObject m ∉ g.types object) (hobject : .instanceOf c ∈ g.types object)
    (hmember : g.member? c attr = some member) (hf : .function f ∈ g.types member.node)
    (hinfo : g.function? f = some info) (hrole : info.role = .method) :
    .method f ∈ g.types id ∧
    (.function f ∈ (g.attributeOf attr (.instanceOf c)).types ↔ ∃ p property,
      .function p ∈ g.types member.node ∧ g.function? p = some property ∧
        property.role = .property ∧ .function f ∈ g.types property.returns) ∧
    ∀ args : List Argument, (∀ a ∈ args, a.passing = .positional) → args ≠ [] →
      Signature.has .varPositional info.params = false →
      args.length = (Signature.positional info.params false).length →
      (g.call args (.method f)).support = .mismatched := by
  refine ⟨?_, ?_, fun args hargs hsome hrest hlength => ?_⟩
  · have hthrough : g.throughInstance (.function f) = .givesType (.method f) := by
      simp [throughInstance, role?, hinfo, hrole]
    have hmem : .method f ∈ (g.attributeOf attr (.instanceOf c)).types := by
      refine (mem_attributeOf_instance hmember).2 ⟨_, hf, ?_⟩
      rw [hthrough]
      exact TypeSet.mem_single.2 rfl
    obtain ⟨k, hk, hmethod⟩ := exists_forEach.2 ⟨_, hobject, hmem⟩
    exact (hg.sound.settled id _ hrule hmodules k hk).2 _ hmethod
  · rw [mem_attributeOf_instance hmember]
    simp only [function_mem_throughInstance]
    have hno : g.role? f ≠ some .staticMethod := by simp [role?, hinfo, hrole]
    grind
  · simp [call, callFunction, hinfo, Signature.bind?_bound_eq_none hargs hrest hsome hlength]

/-- A function of one parameter, stored in an attribute of an instance and read from it. -/
def storing : Graph := Request.runAll (.empty true)
  [.addClass "C" 1, .add (.plain []) 2, .add (.plain []) 2,
    .addFunction ⟨"f", [⟨"x", ⟨1⟩, .positional, false⟩], ⟨2⟩, .method, 2⟩, .constant (.function ⟨0⟩),
    .constant (.instanceOf ⟨0⟩), .add (.write ⟨4⟩ "a" ⟨3⟩) 3, .add (.read ⟨4⟩ "a") 4]

theorem stored_functions_are_bound_storing : .method ⟨0⟩ ∈ storing.types ⟨7⟩ ∧
    (storing.call [⟨⟨2⟩, .positional⟩] (.method ⟨0⟩)).support = .mismatched := by
  have hreachable : Reachable storing := (Reachable.empty true).runAll (by decide +kernel)
  have hobject : (storing.types ⟨4⟩).toList = [.instanceOf ⟨0⟩] := by decide +kernel
  have hinstance : .instanceOf ⟨0⟩ ∈ (storing.types ⟨4⟩).toList := by simp [hobject]
  have hmodules : ∀ m, .moduleObject m ∉ (storing.types ⟨4⟩).toList := by simp [hobject]
  have hmember : storing.member? ⟨0⟩ "a" = some ⟨⟨6⟩, .own⟩ := by decide +kernel
  have hf : .function ⟨0⟩ ∈ (storing.types ⟨6⟩).toList := by decide +kernel
  have hrule : storing.rule? ⟨7⟩ = some (.read ⟨4⟩ "a") := by decide +kernel
  obtain ⟨hbound, -, hcall⟩ := stored_functions_are_bound hreachable hrule hmodules hinstance hmember hf rfl rfl
  exact ⟨hbound, hcall _ (by decide) (by decide) (by decide) (by decide)⟩

/-- The function comes back as a method, and the argument for its parameter does not fit. -/
theorem storing_reads_method : (storing.types ⟨7⟩).toList = [.method ⟨0⟩] ∧
    (storing.find? (.call ⟨7⟩ [⟨⟨2⟩, .positional⟩])).map (·.support) = some .mismatched := by
  decide +kernel

end Graph

end FlowTyping
