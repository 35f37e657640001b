/-
The diagnostics of a report.

They stand in the order of lines, and they are exactly those that were found
(`Project.finish_tells`).  Of equal ones only neighbours are dropped: on each line are the ones
found there, in the order in which they were found, without stutter.  So a diagnostic stands there
twice if another one of the same line was found in between (`Project.not_nodup_alternating`).
-/
import FlowTyping.Project.Report
import FlowTyping.Proofs.Project.Stages

namespace FlowTyping

open List

namespace Report

/-! ### Sorting and thinning -/

/-- The order in which diagnostics are sorted. -/
def byLine (a b : Diagnostic) : Bool := decide (a.line ≤ b.line)

theorem byLine_trans (a b c : Diagnostic) (h : byLine a b) (h' : byLine b c) : byLine a c := by
  simp only [byLine, decide_eq_true_eq] at *
  omega

theorem byLine_total (a b : Diagnostic) : byLine a b || byLine b a := by
  simp only [byLine, Bool.or_eq_true, decide_eq_true_eq]
  omega

theorem filter_mergeSort (ds : List Diagnostic) (n : Nat) :
    (ds.mergeSort byLine).filter (·.line = n) = ds.filter (·.line = n) := by
  -- the ones of one line are in order already, so sorting keeps them as they stand
  have hline : (ds.filter (·.line = n)).Pairwise (byLine · ·) := by
    refine pairwise_of_forall_mem_list fun a ha b hb => ?_
    simp only [mem_filter, decide_eq_true_eq] at ha hb
    simp [byLine, ha.2, hb.2]
  have hkept := (sublist_mergeSort byLine_trans byLine_total hline filter_sublist).filter (·.line = n)
  simp only [filter_filter, Bool.and_self] at hkept
  exact (hkept.eq_of_length ((mergeSort_perm ds _).filter _).length_eq.symm).symm

theorem mem_dropRepeats {d : Diagnostic} {ds : List Diagnostic} : d ∈ dropRepeats ds ↔ d ∈ ds := by
  fun_induction dropRepeats ds <;> simp_all

theorem dropRepeats_sublist (ds : List Diagnostic) : dropRepeats ds <+ ds := by
  fun_induction dropRepeats ds with
  | case1 | case2 => exact .refl _
  | case3 e ds ih => exact ih.cons e
  | case4 d e ds hne ih => exact ih.cons_cons d

theorem filter_dropRepeats {ds : List Diagnostic} (h : ds.Pairwise (byLine · ·)) (n : Nat) :
    (dropRepeats ds).filter (·.line = n) = (ds.filter (·.line = n)).destutter (· ≠ ·) := by
  fun_induction dropRepeats ds with
  | case1 => rfl
  | case2 d => by_cases hd : d.line = n <;> simp [hd]
  | case3 e ds ih =>
    rw [ih h.of_cons]
    by_cases he : e.line = n <;> simp [he, destutter_cons']
  | case4 d e ds hne ih =>
    obtain ⟨hfirst, hrest⟩ := pairwise_cons.1 h
    by_cases hd : d.line = n
    · by_cases he : e.line = n
      · simp [hd, he, ih hrest, destutter_cons', hne]
      · -- the next line has begun, and nothing of this one follows
        have hnone : (e :: ds).filter (·.line = n) = [] := by
          rw [filter_eq_nil_iff]
          intro x hx
          have hde := hfirst e mem_cons_self
          have hdx := hfirst x hx
          rcases mem_cons.1 hx with rfl | hx
          · simpa using he
          · have hex := (pairwise_cons.1 hrest).1 x hx
            simp only [byLine, decide_eq_true_eq] at hde hex ⊢
            omega
        rw [filter_cons_of_pos (a := d) (by simpa using hd), ih hrest,
          filter_cons_of_pos (a := d) (by simpa using hd), hnone]
        rfl
    · rw [filter_cons_of_neg (a := d) (by simpa using hd), ih hrest,
        filter_cons_of_neg (a := d) (by simpa using hd)]

/-! ### Reports -/

/-- The diagnostics of an analysis in the order in which they are found. -/
def found (config : Config) (g : Graph) (a : Analysis) : List Diagnostic :=
  a.diagnostics ++ failures g a.name a.checks ++
    if config.checkConstructorReturns then a.constructors.filterMap (constructorReturn? g a.name)
    else []

/-- What a report says about an analysis. -/
structure Tells (config : Config) (g : Graph) (a : Analysis) (r : Report) : Prop where
  module : r.module = a.name
  ascending : r.diagnostics.Pairwise (·.line ≤ ·.line)
  complete : ∀ d, d ∈ r.diagnostics ↔ d ∈ a.diagnostics ∨
    (∃ id ∈ a.checks, ∃ issue, g.check id = some issue ∧ d = ⟨a.name, g.line id, issue⟩) ∨
    (config.checkConstructorReturns ∧ ∃ c ∈ a.constructors, constructorReturn? g a.name c = some d)
  thinned : ∀ n, r.diagnostics.filter (·.line = n) =
    ((found config g a).filter (·.line = n)).destutter (· ≠ ·)

theorem tells_ofAnalysis (config : Config) (g : Graph) (a : Analysis) :
    Tells config g a (ofAnalysis config g a) := by
  have hsorted := pairwise_mergeSort byLine_trans byLine_total (found config g a)
  refine ⟨rfl, ?_, fun d => ?_, fun n => ?_⟩
  · exact (hsorted.imp of_decide_eq_true).sublist (dropRepeats_sublist _)
  · refine (mem_dropRepeats.trans mem_mergeSort).trans ?_
    rw [mem_append, mem_append, or_assoc]
    refine or_congr_right (or_congr ?_ ?_)
    · simp [failures, eq_comm]
    · split <;> simp [*]
  · exact (filter_dropRepeats hsorted n).trans (by rw [filter_mergeSort])

end Report

/-- **Reports are ordered and complete**: those of a project tell of its analyses one by one, each
judged by the settled graph. -/
theorem Project.finish_tells (p : Project) :
    Forall₂ (Report.Tells p.config p.repropagate.2.graph) p.analyses p.finish :=
  forall₂_map_right_iff.2 (forall₂_same.2 fun a _ => Report.tells_ofAnalysis _ _ a)

/-- `-''; -[]; -''`, on one line. -/
def Project.alternating : Table String SourceText :=
  ⟨[("m", ⟨"-''; -[]; -''\n", some [.expr 0 (.unary 0 .minus (.constant 1 .str)),
    .expr 5 (.unary 5 .minus (.list 6 [])), .expr 10 (.unary 10 .minus (.constant 11 .str))]⟩)]⟩

/-- The first diagnostic comes again after the second one. -/
theorem Project.not_nodup_alternating :
    ∃ r ∈ (ofModules alternating .standard ["m"]).finish, ¬ r.diagnostics.Nodup := by
  have hrepeats : ∃ a ∈ (ofModules alternating .standard ["m"]).repropagate.2.analyses,
      ¬ (((Report.found .standard (ofModules alternating .standard ["m"]).repropagate.2.graph a).filter
        (·.line = 1)).destutter (· ≠ ·)).Nodup := by
    decide +kernel
  obtain ⟨a, ha, hno⟩ := hrepeats
  refine ⟨_, mem_map_of_mem ha, fun hnodup => hno ?_⟩
  rw [← (Report.tells_ofAnalysis _ _ a).thinned 1]
  exact hnodup.filter _

end FlowTyping
