/-
Tables, lists of entries, and collecting what is new.

The view of a table is `get?`; here is how it relates to the entries themselves.  In a list of
entries with distinct keys, looking a key up and having an entry are the same
(`lookup_eq_some_iff_mem`).  Several functions collect what is new from left to right;
`mem_foldl_new` says what they end up with.
-/
import Mathlib
import FlowTyping.Table

namespace FlowTyping

open List

namespace Table

variable {κ α : Type} [DecidableEq κ]

theorem mem_of_find?_eq_some {key : κ} {a : α} {es : List (κ × α)}
    (h : find? key es = some a) : (key, a) ∈ es := by
  induction es with
  | nil => exact absurd h (by simp [find?])
  | cons e es ih =>
    obtain ⟨k, b⟩ := e
    simp only [find?] at h
    split at h
    · next hk =>
      cases h
      cases hk
      exact mem_cons_self
    · exact mem_cons_of_mem _ (ih h)

theorem mem_entries_of_get? {t : Table κ α} {key : κ} {a : α} (h : t.get? key = some a) :
    (key, a) ∈ t.entries := mem_of_find?_eq_some h

/-- A key that has an entry is found, though perhaps with another value. -/
theorem isSome_get?_of_mem {t : Table κ α} {key : κ} {a : α} (h : (key, a) ∈ t.entries) :
    ∃ b, t.get? key = some b := by
  obtain ⟨es⟩ := t
  show ∃ b, find? key es = some b
  replace h : (key, a) ∈ es := h
  induction es with
  | nil => cases h
  | cons e es ih =>
    obtain ⟨k, b⟩ := e
    by_cases hk : k = key
    · exact ⟨b, by rw [find?, if_pos hk]⟩
    · rw [find?, if_neg hk]
      refine ih ((mem_cons.1 h).resolve_left fun heq => hk ?_)
      exact (congrArg Prod.fst heq).symm

theorem mem_put {key : κ} {a : α} {es : List (κ × α)} {e : κ × α} (h : e ∈ put key a es) :
    e ∈ es ∨ e = (key, a) := by
  induction es with
  | nil => exact .inr (mem_singleton.1 h)
  | cons d es ih =>
    obtain ⟨k, b⟩ := d
    simp only [put] at h
    split at h
    · next hk =>
      rcases mem_cons.1 h with rfl | h
      · exact .inr (by rw [hk])
      · exact .inl (mem_cons_of_mem _ h)
    · rcases mem_cons.1 h with rfl | h
      · exact .inl mem_cons_self
      · exact (ih h).imp_left (mem_cons_of_mem _)

theorem mem_entries_insert {t : Table κ α} {key : κ} {a : α} {e : κ × α}
    (h : e ∈ (t.insert key a).entries) : e ∈ t.entries ∨ e = (key, a) := mem_put h

theorem size_insert_of_new {t : Table κ α} {key : κ} (a : α) (h : t.get? key = none) :
    (t.insert key a).size = t.size + 1 := by
  obtain ⟨es⟩ := t
  show (put key a es).length = es.length + 1
  replace h : find? key es = none := h
  induction es with
  | nil => rfl
  | cons e es ih =>
    rw [find?] at h
    split at h
    · cases h
    · next hne => rw [put, if_neg hne, length_cons, ih h, length_cons]

theorem find?_map_snd {β : Type} (f : α → β) (key : κ) (es : List (κ × α)) :
    find? key (es.map fun (k, a) => (k, f a)) = (find? key es).map f := by
  induction es with
  | nil => rfl
  | cons e es ih =>
    obtain ⟨k, b⟩ := e
    simp only [map_cons, find?, ih]
    split <;> rfl

end Table

/-! ### Lists of entries -/

section Entries

variable {α β : Type} [BEq α] [LawfulBEq α]

theorem mem_of_lookup_eq_some {a : α} {b : β} {es : List (α × β)} (h : es.lookup a = some b) :
    (a, b) ∈ es := by
  obtain ⟨before, after, hsplit, -⟩ := lookup_eq_some_iff.1 h
  rw [hsplit]
  exact mem_append_right _ mem_cons_self

theorem lookup_eq_some_iff_mem {es : List (α × β)} (h : (es.map Prod.fst).Nodup) {a : α} {b : β} :
    es.lookup a = some b ↔ (a, b) ∈ es := by
  refine ⟨mem_of_lookup_eq_some, fun hmem => ?_⟩
  obtain ⟨before, after, rfl⟩ := append_of_mem hmem
  refine lookup_eq_some_iff.2 ⟨before, after, rfl, fun e he => bne_iff_ne.2 fun heq => ?_⟩
  rw [map_append, map_cons] at h
  exact (nodup_append.1 h).2.2 _ (mem_map_of_mem he) a mem_cons_self heq.symm

end Entries

/-! ### Collecting what is new -/

section New

variable {α : Type} [BEq α] [LawfulBEq α]

theorem mem_foldl_new {a : α} {as seen : List α} :
    a ∈ as.foldl (fun seen b => if b ∈ seen then seen else seen ++ [b]) seen ↔
      a ∈ seen ∨ a ∈ as := by
  induction as generalizing seen with
  | nil => simp
  | cons b as ih =>
    rw [foldl_cons, ih]
    split
    · next hb =>
      rw [mem_cons]
      constructor
      · exact fun h => h.imp_right Or.inr
      · rintro (h | rfl | h)
        · exact .inl h
        · exact .inl hb
        · exact .inr h
    · rw [mem_append, mem_singleton, mem_cons, or_assoc]

end New

end FlowTyping
