/-
Folding merges keeps what they stand for.

A definition expands to others: a merge to all that arrives at it, again and again, until no merge
is left (`Expands`).  A table of folds is built by putting one entry after the other, each for an
unfolded merge and with an unfolded value (`Layered`), so following folds ends, and the fuel of
`lookup` is enough.  Folding a merge is then a substitution (`lookup_insert`).

`Sound` is the invariant of the rounds: all that arrives at a folded merge stands for the same
definition as the merge itself, and every definition leads to what it stands for.  So resolving a
definition and expanding it over the merges that are left gives what the definition expands to over
all merges (`expands_kept_iff`).  This needs that every merge expands to something; a merge that
nothing reaches would be folded to the unbound definition.
-/
import FlowTyping.Proofs.Table
import FlowTyping.Version.Fold

namespace FlowTyping.Merge

open List Relation

variable {folds : Folds} {merges : List Merge} {d e u : Definition} {ds : List Definition}
  {k v own : Nat} {m : Merge} {name : String} {names : List String}

/-! ### What a definition expands to -/

/-- A merge and something that arrives at it. -/
def Arrow (merges : List Merge) (d s : Definition) : Prop :=
  ∃ m ∈ merges, d = .version m.version ∧ s ∈ m.sources

/-- Replacing merges by what arrives at them, until none is left, can give some definition. -/
inductive Expands (merges : List Merge) : Definition → Definition → Prop where
  | leaf {d : Definition} (h : ∀ m ∈ merges, d ≠ .version m.version) : Expands merges d d
  | merge {m : Merge} {s e : Definition} (hm : m ∈ merges) (hs : s ∈ m.sources)
      (h : Expands merges s e) : Expands merges (.version m.version) e

theorem Expands.not_merge (h : Expands merges d e) : ∀ m ∈ merges, e ≠ .version m.version := by
  induction h with
  | leaf h => exact h
  | merge _ _ _ ih => exact ih

theorem Expands.of_leads {s : Definition} (hd : ReflTransGen (Arrow merges) d s)
    (h : Expands merges s e) : Expands merges d e := by
  induction hd using ReflTransGen.head_induction_on with
  | refl => exact h
  | head harrow _ ih =>
    obtain ⟨m, hm, rfl, hs⟩ := harrow
    exact .merge hm hs ih

/-! ### Following folds -/

/-- What a definition is folded to in one step. -/
def value? (folds : Folds) : Definition → Option Definition
  | .version v => folds.get? v
  | .unbound => none

theorem chase_of_value? (h : value? folds d = some e) (fuel : Nat) :
    chase folds (fuel + 1) d = chase folds fuel e := by
  cases d with
  | version v =>
    have hv : folds.get? v = some e := h
    rw [chase, hv]
  | unbound => cases h

theorem chase_of_not_folded (h : value? folds d = none) (fuel : Nat) : chase folds fuel d = d := by
  cases fuel with
  | zero => rfl
  | succ fuel =>
    cases d with
    | version v =>
      have hv : folds.get? v = none := h
      rw [chase, hv]
    | unbound => rfl

/-- Following folds from `d` ends at `e` after some steps. -/
inductive Ends (folds : Folds) : Nat → Definition → Definition → Prop where
  | stop {d : Definition} (h : value? folds d = none) : Ends folds 0 d d
  | step {d d' e : Definition} {k : Nat} (h : value? folds d = some d')
      (hrest : Ends folds k d' e) : Ends folds (k + 1) d e

theorem Ends.chase {fuel : Nat} (h : Ends folds k d e) (hfuel : k ≤ fuel) :
    chase folds fuel d = e := by
  induction h generalizing fuel with
  | stop h => exact chase_of_not_folded h fuel
  | step h _ ih =>
    obtain ⟨fuel, rfl⟩ := Nat.exists_eq_add_of_le' (Nat.le_of_add_left_le hfuel)
    rw [chase_of_value? h]
    exact ih (Nat.le_of_succ_le_succ hfuel)

theorem Ends.not_folded (h : Ends folds k d e) : value? folds e = none := by
  induction h with
  | stop h => exact h
  | step _ _ ih => exact ih

/-- Tables in which each entry was put for an unfolded merge and with an unfolded value. -/
inductive Layered : Folds → Prop where
  | empty : Layered .empty
  | insert {folds : Folds} {v : Nat} {d : Definition} (h : Layered folds)
      (hv : folds.get? v = none) (hd : value? folds d = none) (hne : d ≠ .version v) :
      Layered (folds.insert v d)

theorem value?_insert_of_ne (h : u ≠ .version v) :
    value? (folds.insert v d) u = value? folds u := by
  cases u with
  | version w =>
    show (folds.insert v d).get? w = folds.get? w
    have hvw : v ≠ w := fun hvw => h (congrArg Definition.version hvw.symm)
    rw [Table.get?_insert, if_neg hvw]
  | unbound => rfl

/-- One more entry turns a chain that ends at the new merge into one that ends at its value. -/
theorem Ends.insert (hv : folds.get? v = none) (hd : value? folds d = none) (hne : d ≠ .version v)
    (h : Ends folds k u e) :
    ∃ k' ≤ k + 1, Ends (folds.insert v d) k' u (if e = .version v then d else e) := by
  have hd' : value? (folds.insert v d) d = none := by rw [value?_insert_of_ne hne, hd]
  induction h with
  | stop h =>
    split
    · next heq =>
      subst heq
      exact ⟨1, Nat.le_refl 1, .step (Table.get?_insert_self folds v d) (.stop hd')⟩
    · next hu =>
      refine ⟨0, Nat.zero_le _, .stop ?_⟩
      rw [value?_insert_of_ne hu, h]
  | @step u u' e k h _ ih =>
    obtain ⟨k', hk, hrest⟩ := ih
    have hu : u ≠ .version v := by
      rintro rfl
      exact absurd (hv.symm.trans h) nofun
    exact ⟨k' + 1, Nat.succ_le_succ hk, .step (by rw [value?_insert_of_ne hu, h]) hrest⟩

namespace Layered

variable {d : Definition}

/-- Following folds ends within as many steps as there are entries. -/
theorem ends (h : Layered folds) (u : Definition) : ∃ k ≤ folds.size, ∃ e, Ends folds k u e := by
  induction h with
  | empty =>
    have hnone : value? .empty u = none := by cases u <;> rfl
    exact ⟨0, Nat.zero_le _, u, .stop hnone⟩
  | @insert folds v d h hv hd hne ih =>
    obtain ⟨k, hk, e, hends⟩ := ih
    obtain ⟨k', hk', hends'⟩ := hends.insert hv hd hne
    rw [Table.size_insert_of_new d hv]
    exact ⟨k', hk'.trans (Nat.succ_le_succ hk), _, hends'⟩

theorem ends_lookup (h : Layered folds) (u : Definition) :
    ∃ k ≤ folds.size, Ends folds k u (lookup folds u) := by
  obtain ⟨k, hk, e, hends⟩ := h.ends u
  have he : lookup folds u = e := hends.chase (Nat.le_succ_of_le hk)
  exact ⟨k, hk, he ▸ hends⟩

theorem value?_lookup (h : Layered folds) (u : Definition) : value? folds (lookup folds u) = none :=
  let ⟨_, _, hends⟩ := h.ends_lookup u
  hends.not_folded

/-- A folded definition stands for what its value stands for. -/
theorem lookup_of_value? (h : Layered folds) {u : Definition} (hu : value? folds u = some d) :
    lookup folds u = lookup folds d := by
  obtain ⟨k, hk, hends⟩ := h.ends_lookup d
  exact (Ends.step hu hends).chase (Nat.succ_le_succ hk)

/-- **Folding one more merge is a substitution.** -/
theorem lookup_insert (h : Layered folds) {v : Nat} (hv : folds.get? v = none)
    (hd : value? folds d = none) (hne : d ≠ .version v) (u : Definition) :
    lookup (folds.insert v d) u =
      if lookup folds u = .version v then d else lookup folds u := by
  obtain ⟨k, hk, hends⟩ := h.ends_lookup u
  obtain ⟨k', hk', hends'⟩ := hends.insert hv hd hne
  refine hends'.chase ?_
  rw [Table.size_insert_of_new d hv]
  exact (hk'.trans (Nat.succ_le_succ hk)).trans (Nat.le_succ _)

end Layered

theorem lookup_of_not_folded (h : value? folds d = none) : lookup folds d = d :=
  chase_of_not_folded h _

theorem lookup_version (h : folds.get? v = none) : lookup folds (.version v) = .version v :=
  lookup_of_not_folded h

theorem Layered.lookup_lookup (h : Layered folds) (u : Definition) :
    lookup folds (lookup folds u) = lookup folds u :=
  lookup_of_not_folded (h.value?_lookup u)

/-! ### Rounds -/

theorem mem_foldl_distinct {seen : List Definition} :
    d ∈ ds.foldl (fun seen d => if d = .version own ∨ d ∈ seen then seen else seen ++ [d]) seen ↔
      d ∈ seen ∨ d ∈ ds ∧ d ≠ .version own := by
  induction ds generalizing seen with
  | nil => simp
  | cons a ds ih =>
    rw [foldl_cons, ih]
    split
    · next h =>
      rcases h with rfl | h
      · grind
      · grind
    · grind

theorem mem_distinct : d ∈ distinct own ds ↔ d ∈ ds ∧ d ≠ .version own := by
  rw [distinct, mem_foldl_distinct]
  simp

structure Sound (merges : List Merge) (folds : Folds) : Prop where
  layered : Layered folds
  /-- Only merges are folded. -/
  merge : ∀ v d, folds.get? v = some d → ∃ m ∈ merges, m.version = v
  /-- All that arrives at a folded merge stands for the same as the merge. -/
  same : ∀ m ∈ merges, folds.contains m.version = true → ∀ s ∈ m.sources,
    lookup folds s = lookup folds (.version m.version)
  leads : ∀ d, ReflTransGen (Arrow merges) d (lookup folds d)

theorem sound_empty (merges : List Merge) : Sound merges .empty where
  layered := .empty
  merge _ _ h := nomatch h
  same _ _ h := nomatch h
  leads d := by
    have hd : lookup .empty d = d := lookup_of_not_folded (by cases d <;> rfl)
    rw [hd]

/-- Every merge expands to something. -/
def Grounded (merges : List Merge) : Prop :=
  ∀ m ∈ merges, ∃ e, Expands merges (.version m.version) e

/-- No two merges have the same version. -/
def Distinct (merges : List Merge) : Prop :=
  ∀ m ∈ merges, ∀ m' ∈ merges, m.version = m'.version → m = m'

namespace Sound

variable {d : Definition} {m : Merge}

variable (h : Sound merges folds)
include h

theorem lookup_of_not_merge (hd : ∀ m ∈ merges, d ≠ .version m.version) : lookup folds d = d := by
  refine lookup_of_not_folded ?_
  cases d with
  | unbound => rfl
  | version v =>
    rcases hv : folds.get? v with - | d
    · exact hv
    · obtain ⟨m, hm, rfl⟩ := h.merge v d hv
      exact absurd rfl (hd m hm)

variable (hdistinct : Distinct merges)
include hdistinct

/-- If all that arrives at an unfolded merge stands for the merge itself, then so does all that it
expands to, which is absurd. -/
theorem exists_other_source (hground : Grounded merges) (hm : m ∈ merges)
    (hopen : folds.get? m.version = none) :
    ∃ s ∈ m.sources, lookup folds s ≠ .version m.version := by
  by_contra hall
  push Not at hall
  obtain ⟨e, he⟩ := hground m hm
  have hown : lookup folds (.version m.version) = .version m.version := lookup_version hopen
  have hself : ∀ d, Expands merges d e → lookup folds d = .version m.version →
      lookup folds e = .version m.version := by
    intro d hd hlookup
    induction hd with
    | leaf _ => exact hlookup
    | @merge m' s e hm' hs hrest ih =>
      refine ih he ?_
      rcases hfold : folds.get? m'.version with - | d'
      · rw [lookup_version hfold] at hlookup
        obtain rfl := hdistinct m' hm' m hm (Definition.version.inj hlookup)
        exact hall s hs
      · rw [h.same m' hm' (by rw [Table.contains, hfold]; rfl) s hs, hlookup]
  have hleaf := hself _ he hown
  rw [h.lookup_of_not_merge he.not_merge] at hleaf
  exact he.not_merge m hm hleaf

theorem insert (hm : m ∈ merges) (hopen : folds.get? m.version = none)
    (hd : distinct m.version (m.sources.map (lookup folds)) = [d]) :
    Sound merges (folds.insert m.version d) := by
  have hmem : ∀ e, (e ∈ m.sources.map (lookup folds) ∧ e ≠ .version m.version) ↔ e = d := by
    intro e
    rw [← mem_distinct, hd, mem_singleton]
  obtain ⟨hsource, hne⟩ := (hmem d).2 rfl
  obtain ⟨s, hs, hlookup⟩ := mem_map.1 hsource
  have hclosed : value? folds d = none := by
    rw [← hlookup]
    exact h.layered.value?_lookup s
  have hinsert := h.layered.lookup_insert hopen hclosed hne
  have hown : lookup folds (.version m.version) = .version m.version := lookup_version hopen
  refine ⟨.insert h.layered hopen hclosed hne, ?_, ?_, ?_⟩
  · intro v d' hv
    rw [Table.get?_insert] at hv
    split at hv
    · next heq => exact ⟨m, hm, heq⟩
    · exact h.merge v d' hv
  · intro m' hm' hcontains s' hs'
    rw [hinsert, hinsert]
    by_cases heq : m' = m
    · subst heq
      rw [hown, if_pos rfl]
      split
      · rfl
      · next hother => exact (hmem _).1 ⟨mem_map_of_mem hs', hother⟩
    · rw [h.same m' hm' ?_ s' hs']
      have hversion : m.version ≠ m'.version := fun hv => heq (hdistinct m' hm' m hm hv.symm)
      rw [Table.contains, Table.get?_insert, if_neg hversion] at hcontains
      exact hcontains
  · intro u
    rw [hinsert]
    split
    · next hu =>
      have hsteps : ReflTransGen (Arrow merges) (.version m.version) d := by
        rw [← hlookup]
        exact .head ⟨m, hm, rfl, hs⟩ (h.leads s)
      exact (hu ▸ h.leads u).trans hsteps
    · exact h.leads u

theorem foldOne (hground : Grounded merges) (hm : m ∈ merges) :
    Sound merges (Merge.foldOne folds m) := by
  rw [Merge.foldOne]
  split
  · exact h
  · next hopen =>
    have hnone : folds.get? m.version = none := by
      rw [Table.contains, Bool.not_eq_true, Option.isSome_eq_false_iff, Option.isNone_iff_eq_none] at hopen
      exact hopen
    split
    · next hempty =>
      obtain ⟨s, hs, hother⟩ := h.exists_other_source hdistinct hground hm hnone
      have hmem := mem_distinct.2 ⟨mem_map_of_mem (f := lookup folds) hs, hother⟩
      rw [hempty] at hmem
      cases hmem
    · next d hd => exact h.insert hdistinct hm hnone hd
    · exact h

theorem foldl_foldOne (hground : Grounded merges) (todo : List Merge)
    (htodo : ∀ m ∈ todo, m ∈ merges) : Sound merges (todo.foldl Merge.foldOne folds) := by
  induction todo generalizing folds with
  | nil => exact h
  | cons m todo ih =>
    rw [foldl_cons]
    exact ih (h.foldOne hdistinct hground (htodo m mem_cons_self)) fun m' hm' =>
      htodo m' (mem_cons_of_mem m hm')

theorem foldRounds (hground : Grounded merges) (fuel : Nat) :
    Sound merges (Merge.foldRounds merges fuel folds) := by
  induction fuel generalizing folds with
  | zero => exact h
  | succ fuel ih =>
    rw [Merge.foldRounds]
    split
    · exact h
    · exact ih (h.foldl_foldOne hdistinct hground merges fun _ hm => hm)

end Sound

/-! ### What is left -/

/-- What the merges of one name are folded to in the end, step by step. -/
def found (merges : List Merge) : Folds := Merge.foldRounds merges (merges.length + 1) .empty

theorem get?_folds (merges : List Merge) (v : Nat) :
    (Merge.folds merges).get? v = ((found merges).get? v).map (lookup (found merges)) :=
  Table.find?_map_snd (lookup (found merges)) v (found merges).entries

/-- A definition with folded merges replaced by what they stand for. -/
def resolved (folds : Folds) (d : Definition) : Definition := (value? folds d).getD d

theorem resolved_folds (h : Layered (found merges)) (d : Definition) :
    resolved (Merge.folds merges) d = lookup (found merges) d := by
  cases d with
  | unbound => exact (lookup_of_not_folded rfl).symm
  | version v =>
    show ((Merge.folds merges).get? v).getD (.version v) = _
    rw [get?_folds]
    rcases hv : (found merges).get? v with - | d
    · exact (lookup_version hv).symm
    · have hvalue : value? (found merges) (.version v) = some d := hv
      exact (h.lookup_of_value? hvalue).symm

/-- The merges that are not folded, with what arrives at them resolved. -/
def kept (folds : Folds) (merges : List Merge) : List Merge :=
  (merges.filter fun m => resolved folds (.version m.version) = .version m.version).map fun m =>
    { m with sources := distinct m.version (m.sources.map (resolved folds)) }

theorem mem_kept :
    m ∈ kept folds merges ↔ ∃ m₀ ∈ merges, resolved folds (.version m₀.version) = .version m₀.version ∧
      m = { m₀ with sources := distinct m₀.version (m₀.sources.map (resolved folds)) } := by
  simp only [kept, mem_map, mem_filter, decide_eq_true_eq]
  constructor
  · rintro ⟨m₀, ⟨hm, hkeep⟩, rfl⟩
    exact ⟨m₀, hm, hkeep, rfl⟩
  · rintro ⟨m₀, hm, hkeep, rfl⟩
    exact ⟨m₀, ⟨hm, hkeep⟩, rfl⟩

theorem expands_of_expands_kept (h : Sound merges (found merges)) (hd : lookup (found merges) u = d)
    (he : Expands (kept (Merge.folds merges) merges) d e) : Expands merges u e := by
  have hresolved := resolved_folds h.layered
  induction he generalizing u with
  | @leaf d hleaf =>
    refine .of_leads (hd ▸ h.leads u) (.leaf fun m hm heq => ?_)
    have hopen : resolved (Merge.folds merges) (.version m.version) = .version m.version := by
      rw [hresolved, ← heq, ← hd, h.layered.lookup_lookup]
    exact hleaf _ (mem_kept.2 ⟨m, hm, hopen, rfl⟩) heq
  | merge hm hs _ ih =>
    obtain ⟨m₀, hm₀, -, rfl⟩ := mem_kept.1 hm
    obtain ⟨hs, -⟩ := mem_distinct.1 hs
    obtain ⟨s₀, hs₀, rfl⟩ := mem_map.1 hs
    exact .of_leads (hd ▸ h.leads u) (.merge hm₀ hs₀ (ih (hresolved s₀).symm))

theorem expands_kept_of_expands (h : Sound merges (found merges)) (he : Expands merges u e) :
    Expands (kept (Merge.folds merges) merges) (lookup (found merges) u) e := by
  have hresolved := resolved_folds h.layered
  induction he with
  | @leaf d hleaf =>
    rw [h.lookup_of_not_merge hleaf]
    refine .leaf fun m hm => ?_
    obtain ⟨m₀, hm₀, -, rfl⟩ := mem_kept.1 hm
    exact hleaf m₀ hm₀
  | @merge m s e hm hs _ ih =>
    rcases hfold : (found merges).get? m.version with - | d
    · have hown : lookup (found merges) (.version m.version) = .version m.version :=
        lookup_version hfold
      rw [hown]
      by_cases hself : lookup (found merges) s = .version m.version
      · rw [← hself]
        exact ih
      · have hkept := mem_kept.2 ⟨m, hm, (hresolved _).trans hown, rfl⟩
        have hsource := mem_distinct.2 ⟨mem_map.2 ⟨s, hs, hresolved s⟩, hself⟩
        have hstep := Expands.merge hkept hsource ih
        exact hstep
    · have hcontains : (found merges).contains m.version = true := by
        rw [Table.contains, hfold]
        rfl
      rw [← h.same m hm hcontains s hs]
      exact ih

/-- **Folding keeps what definitions expand to.** -/
theorem expands_kept_iff (hdistinct : Distinct merges) (hground : Grounded merges) :
    Expands (kept (Merge.folds merges) merges) (resolved (Merge.folds merges) u) e ↔
      Expands merges u e := by
  have h : Sound merges (found merges) :=
    (sound_empty merges).foldRounds hdistinct hground (merges.length + 1)
  rw [resolved_folds h.layered]
  exact ⟨expands_of_expands_kept h rfl, expands_kept_of_expands h⟩

/-! ### All names together -/

def named (name : String) (merges : List Merge) : List Merge := merges.filter (·.name = name)

@[simp]
theorem mem_named : m ∈ named name merges ↔ m ∈ merges ∧ m.name = name := by
  simp [named]

theorem get?_foldl_substitution {s : Substitution} :
    (names.foldl (fun s name => s.insert name (Merge.folds (named name merges))) s).get? name =
      if name ∈ names then some (Merge.folds (named name merges)) else s.get? name := by
  induction names generalizing s with
  | nil => rfl
  | cons other names ih =>
    rw [foldl_cons, ih]
    by_cases hmem : name ∈ names
    · rw [if_pos hmem, if_pos (mem_cons_of_mem other hmem)]
    · rw [if_neg hmem, Table.get?_insert]
      by_cases heq : other = name
      · subst heq
        rw [if_pos rfl, if_pos mem_cons_self]
      · have hnot : name ∉ other :: names := fun h =>
          (mem_cons.1 h).elim (fun h => heq h.symm) hmem
        rw [if_neg heq, if_neg hnot]

theorem resolve_substitution (h : name ∈ names) (d : Definition) :
    resolve (substitution names merges) name d = resolved (Merge.folds (named name merges)) d := by
  cases d with
  | unbound => rfl
  | version v =>
    have hget : (substitution names merges).get? name = some (Merge.folds (named name merges)) :=
      get?_foldl_substitution.trans (if_pos h)
    show (((substitution names merges).get? name).bind (·.get? v)).getD (.version v) = _
    rw [hget]
    rfl

/-- The merges of a name that are left are those that are left when the name is looked at alone. -/
theorem named_simplified (h : name ∈ names) :
    named name ((merges.filter (isKept (substitution names merges))).map
        (simplified (substitution names merges))) =
      kept (Merge.folds (named name merges)) (named name merges) := by
  have hresolve := @resolve_substitution merges _ _ h
  simp only [named, kept, filter_map, filter_filter]
  have hfilter : ∀ m : Merge,
      (((fun m : Merge => decide (m.name = name)) ∘ simplified (substitution names merges)) m &&
        isKept (substitution names merges) m) =
      (decide (resolved (Merge.folds (named name merges)) (.version m.version) = .version m.version) &&
        decide (m.name = name)) := by
    intro m
    rw [Bool.and_comm]
    by_cases hm : m.name = name
    · subst hm
      rw [isKept, hresolve]
      rfl
    · have hname : (simplified (substitution names merges) m).name ≠ name := hm
      simp [hm, hname]
  rw [filter_congr fun m _ => hfilter m]
  refine map_congr_left fun m hm => ?_
  obtain rfl : m.name = name := by
    have := (mem_filter.1 hm).2
    rw [Bool.and_eq_true, decide_eq_true_eq, decide_eq_true_eq] at this
    exact this.2
  rw [simplified, funext hresolve]
  rfl

end FlowTyping.Merge
