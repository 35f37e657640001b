/-
Finite sets of types, kept as strictly ascending lists.

A set is what a node of the constraint graph holds: it starts empty and only grows.  Because the
list is strictly ascending, a set is determined by its members (`TypeSet.ext`), and the listing of a
set never depends on the order of insertion.  The view is membership in `toList`; `mem_insert` and
`mem_union` say what the operations do to it.
-/
import FlowTyping.KindSet
import FlowTyping.Ty

namespace FlowTyping

/-- A finite set of types in ascending order. -/
structure TypeSet where
  toList : List Ty
  ascending : toList.Pairwise fun a b => a.before b = true

namespace TypeSet

/-! ### Insertion into an ascending list -/

/-- Put a type at its place in an ascending list, once. -/
def insertInto (t : Ty) : List Ty → List Ty
  | [] => [t]
  | u :: us => if t.before u then t :: u :: us else if t = u then u :: us else u :: insertInto t us

theorem mem_insertInto {t u : Ty} {us : List Ty} : u ∈ insertInto t us ↔ u = t ∨ u ∈ us := by
  induction us with
  | nil => simp [insertInto]
  | cons v vs ih =>
    simp only [insertInto]
    split
    · simp
    · split
      · next h =>
        subst h
        simp
      · simp only [List.mem_cons, ih]
        constructor
        · rintro (h | h | h) <;> simp [h]
        · rintro (h | h | h) <;> simp [h]

theorem insertInto_ascending {t : Ty} {us : List Ty}
    (h : us.Pairwise fun a b => a.before b = true) :
    (insertInto t us).Pairwise fun a b => a.before b = true := by
  induction us with
  | nil => simp [insertInto]
  | cons v vs ih =>
    obtain ⟨hv, hvs⟩ := List.pairwise_cons.1 h
    simp only [insertInto]
    split
    · next htv =>
      refine List.pairwise_cons.2 ⟨fun w hw => ?_, h⟩
      rcases List.mem_cons.1 hw with rfl | hw
      · exact htv
      · exact Ty.before_trans htv (hv w hw)
    · next htv =>
      split
      · exact h
      · next hne =>
        refine List.pairwise_cons.2 ⟨fun w hw => ?_, ih hvs⟩
        rcases mem_insertInto.1 hw with rfl | hw
        · rcases Ty.before_trichotomy w v with h' | h' | h'
          · exact absurd h' htv
          · exact absurd h' hne
          · exact h'
        · exact hv w hw

/-! ### The operations -/

def empty : TypeSet := ⟨[], .nil⟩

instance : EmptyCollection TypeSet := ⟨empty⟩

instance : Inhabited TypeSet := ⟨empty⟩

def insert (s : TypeSet) (t : Ty) : TypeSet :=
  ⟨insertInto t s.toList, insertInto_ascending s.ascending⟩

def single (t : Ty) : TypeSet := empty.insert t

/-- The set that says nothing: any type at all. -/
def any : TypeSet := single .any

def ofList (ts : List Ty) : TypeSet := ts.foldl insert empty

def union (s t : TypeSet) : TypeSet := t.toList.foldl insert s

def ofKinds (ks : KindSet) : TypeSet := ofList (ks.toList.map .base)

def contains (s : TypeSet) (t : Ty) : Bool := s.toList.contains t

def hasAny (s : TypeSet) : Bool := s.contains .any

def isEmpty (s : TypeSet) : Bool := s.toList.isEmpty

def size (s : TypeSet) : Nat := s.toList.length

def isSubset (s t : TypeSet) : Bool := s.toList.all t.contains

/-- The kinds of the members, if all of them are base types. -/
def kinds? (s : TypeSet) : Option KindSet := (s.toList.mapM Ty.kind?).map .ofList

/-- The set as it is reported: where nothing is known, or every kind is possible, it is `any`. -/
def presented (s : TypeSet) : TypeSet :=
  if s.isEmpty || s.kinds? == some .full then any else s

/-- The members' texts, sorted, in braces. -/
def display (s : TypeSet) : String := Text.braced (Text.sort (s.toList.map Ty.display))

/-! ### The view -/

instance : Membership Ty TypeSet := ⟨fun s t => t ∈ s.toList⟩

instance (t : Ty) (s : TypeSet) : Decidable (t ∈ s) := inferInstanceAs (Decidable (t ∈ s.toList))

theorem mem_def {t : Ty} {s : TypeSet} : t ∈ s ↔ t ∈ s.toList := Iff.rfl

/-- Two ascending lists with the same members are equal. -/
theorem eq_of_ascending {as bs : List Ty} (ha : as.Pairwise fun a b => a.before b = true)
    (hb : bs.Pairwise fun a b => a.before b = true) (h : ∀ t, t ∈ as ↔ t ∈ bs) : as = bs := by
  induction as generalizing bs with
  | nil =>
    cases bs with
    | nil => rfl
    | cons b bs => exact absurd ((h b).2 List.mem_cons_self) (by simp)
  | cons a as ih =>
    cases bs with
    | nil => exact absurd ((h a).1 List.mem_cons_self) (by simp)
    | cons b bs =>
      obtain ⟨ha₁, ha₂⟩ := List.pairwise_cons.1 ha
      obtain ⟨hb₁, hb₂⟩ := List.pairwise_cons.1 hb
      -- both heads are least, so neither is before the other
      have hab : a = b := by
        rcases List.mem_cons.1 ((h a).1 List.mem_cons_self) with h₁ | h₁
        · exact h₁
        · rcases List.mem_cons.1 ((h b).2 List.mem_cons_self) with h₂ | h₂
          · exact h₂.symm
          · have hirr := Ty.before_trans (ha₁ b h₂) (hb₁ a h₁)
            rw [Ty.before_irrefl] at hirr
            exact absurd hirr Bool.false_ne_true
      subst hab
      congr 1
      refine ih ha₂ hb₂ fun t => ?_
      have hnot {cs : List Ty} (hc : ∀ c ∈ cs, a.before c = true) : a ∉ cs := fun hm => by
        have hirr := hc a hm
        rw [Ty.before_irrefl] at hirr
        exact Bool.false_ne_true hirr
      have ht := h t
      simp only [List.mem_cons] at ht
      constructor
      · intro hm
        rcases ht.1 (.inr hm) with rfl | h'
        · exact absurd hm (hnot ha₁)
        · exact h'
      · intro hm
        rcases ht.2 (.inr hm) with rfl | h'
        · exact absurd hm (hnot hb₁)
        · exact h'

@[ext]
theorem ext {s t : TypeSet} (h : ∀ u, u ∈ s ↔ u ∈ t) : s = t := by
  obtain ⟨as, ha⟩ := s
  obtain ⟨bs, hb⟩ := t
  have : as = bs := eq_of_ascending ha hb h
  subst this
  rfl

instance : DecidableEq TypeSet := fun s t =>
  decidable_of_iff (s.toList = t.toList)
    ⟨fun h => by cases s; cases t; cases h; rfl, fun h => by rw [h]⟩

@[simp]
theorem not_mem_empty (t : Ty) : t ∉ empty := by simp [mem_def, empty]

@[simp]
theorem mem_insert {s : TypeSet} {t u : Ty} : u ∈ s.insert t ↔ u = t ∨ u ∈ s :=
  mem_insertInto

@[simp]
theorem mem_single {t u : Ty} : u ∈ single t ↔ u = t := by simp [single]

theorem mem_foldl_insert {ts : List Ty} {s : TypeSet} {u : Ty} :
    u ∈ ts.foldl insert s ↔ u ∈ s ∨ u ∈ ts := by
  induction ts generalizing s with
  | nil => simp
  | cons t ts ih =>
    rw [List.foldl_cons, ih, mem_insert, List.mem_cons]
    constructor
    · rintro ((h | h) | h) <;> simp [h]
    · rintro (h | h | h) <;> simp [h]

@[simp]
theorem mem_union {s t : TypeSet} {u : Ty} : u ∈ s.union t ↔ u ∈ s ∨ u ∈ t :=
  mem_foldl_insert

@[simp]
theorem mem_ofList {ts : List Ty} {u : Ty} : u ∈ ofList ts ↔ u ∈ ts := by
  simp [ofList, mem_foldl_insert]

theorem contains_iff {s : TypeSet} {t : Ty} : s.contains t = true ↔ t ∈ s := by
  simp [contains, mem_def]

theorem isSubset_iff {s t : TypeSet} : s.isSubset t = true ↔ ∀ u ∈ s, u ∈ t := by
  simp [isSubset, contains_iff, mem_def]

end TypeSet

end FlowTyping
