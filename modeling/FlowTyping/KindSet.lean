/-
Sets of base kinds, one bit per kind.

The view of a set is `KindSet.contains`: each operation says what it does to it (`contains_inter`,
`contains_insert`, `contains_ofPred`), and two sets with the same members are
equal (`KindSet.ext`).  `KindSet.size` counts members; a proper part of a set is smaller
(`size_lt_of_ssubset`), which is what ends the narrowing of parameter domains.
-/
import FlowTyping.Kind

namespace FlowTyping

/-- A set of base kinds: bit `k.index` says whether `k` belongs to it. -/
structure KindSet where
  bits : BitVec 10
deriving DecidableEq, Repr, Inhabited

namespace KindSet

def empty : KindSet := ⟨0#10⟩

def full : KindSet := ⟨BitVec.allOnes 10⟩

def contains (s : KindSet) (k : Kind) : Bool := s.bits.getLsbD k.index

def insert (s : KindSet) (k : Kind) : KindSet := ⟨s.bits ||| BitVec.twoPow 10 k.index⟩

def inter (s t : KindSet) : KindSet := ⟨s.bits &&& t.bits⟩

def union (s t : KindSet) : KindSet := ⟨s.bits ||| t.bits⟩

def ofList (ks : List Kind) : KindSet := ks.foldl insert empty

def ofPred (p : Kind → Bool) : KindSet := ofList (Kind.all.filter p)

/-- The members in the order of the kinds. -/
def toList (s : KindSet) : List Kind := Kind.all.filter s.contains

def size (s : KindSet) : Nat := s.toList.length

def isEmpty (s : KindSet) : Bool := s == empty

def isFull (s : KindSet) : Bool := s == full

/-! ### The view -/

@[ext]
theorem ext {s t : KindSet} (h : ∀ k, s.contains k = t.contains k) : s = t := by
  obtain ⟨s⟩ := s
  obtain ⟨t⟩ := t
  congr 1
  apply BitVec.eq_of_getLsbD_eq
  intro i hi
  obtain ⟨k, rfl⟩ := Kind.exists_index hi
  exact h k

@[simp]
theorem contains_empty (k : Kind) : empty.contains k = false := by cases k <;> rfl

@[simp]
theorem contains_full (k : Kind) : full.contains k = true := by cases k <;> rfl

@[simp]
theorem contains_inter (s t : KindSet) (k : Kind) :
    (s.inter t).contains k = (s.contains k && t.contains k) := by
  simp [contains, inter]

@[simp]
theorem contains_insert (s : KindSet) (k l : Kind) :
    (s.insert k).contains l = (s.contains l || k == l) := by
  have hk := Kind.index_lt k
  have hiff : (k.index = l.index) ↔ k = l := ⟨Kind.index_inj, congrArg _⟩
  simp [contains, insert, BitVec.getLsbD_twoPow, hk, hiff]
  rfl

theorem contains_foldl_insert (ks : List Kind) (s : KindSet) (k : Kind) :
    (ks.foldl insert s).contains k = (s.contains k || ks.contains k) := by
  induction ks generalizing s with
  | nil => simp
  | cons a as ih =>
    rw [List.foldl_cons, ih, contains_insert, List.contains_cons, Bool.or_assoc]
    have hcomm : (a == k) = (k == a) := by
      rw [Bool.eq_iff_iff, beq_iff_eq, beq_iff_eq]
      exact eq_comm
    rw [hcomm]

@[simp]
theorem contains_ofList (ks : List Kind) (k : Kind) : (ofList ks).contains k = ks.contains k := by
  simp [ofList, contains_foldl_insert]

@[simp]
theorem contains_ofPred (p : Kind → Bool) (k : Kind) : (ofPred p).contains k = p k := by
  rw [Bool.eq_iff_iff]
  simp [ofPred, Kind.mem_all]

theorem mem_toList {s : KindSet} {k : Kind} : k ∈ s.toList ↔ s.contains k = true := by
  simp [toList, Kind.mem_all]

/-! ### Size -/

theorem length_filter_le {p q : Kind → Bool} (h : ∀ k, p k = true → q k = true) (ks : List Kind) :
    (ks.filter p).length ≤ (ks.filter q).length := by
  induction ks with
  | nil => exact Nat.le_refl 0
  | cons k ks ih =>
    simp only [List.filter_cons]
    rcases hp : p k with - | -
    · rcases q k with - | -
      · exact ih
      · exact Nat.le_succ_of_le ih
    · rw [h k hp]
      exact Nat.succ_le_succ ih

theorem length_filter_lt {p q : Kind → Bool} (h : ∀ k, p k = true → q k = true) {k : Kind}
    (hp : p k = false) (hq : q k = true) {ks : List Kind} (hk : k ∈ ks) :
    (ks.filter p).length < (ks.filter q).length := by
  induction ks with
  | nil => exact absurd hk (by simp)
  | cons l ks ih =>
    simp only [List.filter_cons]
    rcases List.mem_cons.1 hk with rfl | hk
    · rw [hp, hq]
      exact Nat.lt_succ_of_le (length_filter_le h ks)
    · rcases hpl : p l with - | -
      · rcases q l with - | -
        · exact ih hk
        · exact Nat.lt_succ_of_lt (ih hk)
      · rw [h l hpl]
        exact Nat.succ_lt_succ (ih hk)

/-- A set contained in another and different from it has fewer members. -/
theorem size_lt_of_ssubset {s t : KindSet} (h : ∀ k, s.contains k = true → t.contains k = true)
    (hne : s ≠ t) : s.size < t.size := by
  by_cases hall : ∀ k, t.contains k = true → s.contains k = true
  · refine absurd (ext fun k => ?_) hne
    rw [Bool.eq_iff_iff]
    exact ⟨h k, hall k⟩
  · obtain ⟨k, hk⟩ := Classical.not_forall.1 hall
    obtain ⟨ht, hs⟩ := Classical.not_imp.1 hk
    exact length_filter_lt h (Bool.eq_false_iff.2 hs) ht (Kind.mem_all k)

end KindSet

end FlowTyping
