/-
The line of an offset is exact.

The starts of lines ascend, so bisection reaches as many starts as are not beyond the offset,
whether it meets the offset or not (`reached_search_eq_countP`).  A line starts just behind a line
feed, and a line feed is one byte that is found in no other character (`lineFeed_not_mem`), so
counting starts is counting those bytes (`countP_startsAfter`).
-/
import Mathlib
import FlowTyping.Lines

namespace FlowTyping.Lines

open List

variable {starts : List Nat} {offset low high cut i : Nat}

/-! ### Bisection -/

theorem reached_search_eq {starts : Array Nat} (hcut : ∀ i < high, starts.getD i 0 ≤ offset ↔ i < cut)
    (hasc : ∀ i < high, ∀ j < i, starts.getD j 0 < starts.getD i 0) (hlow : low ≤ cut)
    (hhigh : cut ≤ high) : reached (search starts offset low high) = cut := by
  -- the cut stays between the two ends
  fun_induction search starts offset low high with
  | case1 low high hlt middle start heq =>
    have hmiddle : middle < cut := (hcut middle (by omega)).1 heq.le
    -- a start that is met is the last one before the cut, since the next one lies beyond it
    by_contra hne
    have hnext : middle + 1 < cut := by simp only [reached] at hne; omega
    have := (hcut (middle + 1) (by omega)).2 hnext
    have := hasc (middle + 1) (by omega) middle (by omega)
    omega
  | case2 low high hlt middle start hne hbefore ih =>
    have hmiddle : middle < cut := (hcut middle (by omega)).1 hbefore.le
    exact ih hcut hasc hmiddle hhigh
  | case3 low high hlt middle start hne hbeyond ih =>
    have hmiddle : cut ≤ middle := by
      by_contra hlt'
      have := (hcut middle (by omega)).2 (by omega)
      omega
    exact ih (fun i hi => hcut i (by omega)) (fun i hi => hasc i (by omega)) hlow hmiddle
  | case4 low high hge =>
    have hmeet : low = cut := by omega
    exact hmeet

/-- In an ascending list, the entries that are not beyond an offset come first. -/
theorem getElem_le_iff_lt_countP (h : starts.Pairwise (· < ·)) (hi : i < starts.length) :
    starts[i] ≤ offset ↔ i < starts.countP (· ≤ offset) := by
  induction starts generalizing i with
  | nil => simp at hi
  | cons s starts ih =>
    obtain ⟨hfirst, hrest⟩ := pairwise_cons.1 h
    by_cases hs : s ≤ offset
    · rw [countP_cons_of_pos (by simpa using hs)]
      cases i with
      | zero => simpa using hs
      | succ i => simpa using ih hrest (by simpa using hi)
    · have hnone : (s :: starts).countP (· ≤ offset) = 0 := by
        rw [countP_eq_zero]
        intro t ht
        rcases mem_cons.1 ht with rfl | ht
        · simpa using hs
        · have := hfirst t ht
          simp
          omega
      rw [hnone]
      rcases mem_cons.1 (getElem_mem hi) with heq | hmem
      · omega
      · have := hfirst _ hmem
        omega

theorem reached_search_eq_countP (h : starts.Pairwise (· < ·)) :
    reached (search starts.toArray offset 0 starts.length) = starts.countP (· ≤ offset) := by
  have hget {i : Nat} (hi : i < starts.length) : starts.toArray.getD i 0 = starts[i] := by
    rw [Array.getD_eq_getD_getElem?, getElem?_toArray, getElem?_eq_getElem hi, Option.getD_some]
  refine reached_search_eq (fun i hi => ?_) (fun i hi j hj => ?_) (Nat.zero_le _) countP_le_length
  · rw [hget hi]
    exact getElem_le_iff_lt_countP h hi
  · rw [hget hi, hget (hj.trans hi)]
    exact pairwise_iff_getElem.1 h j i _ hi hj

/-! ### Starts of lines -/

theorem pairwise_cons_startsAfter (start : Nat) (cs : List Char) :
    (start :: startsAfter start cs).Pairwise (· < ·) := by
  induction cs generalizing start with
  | nil => exact pairwise_singleton _ start
  | cons c cs ih =>
    have hnext : start < start + c.utf8Size := Nat.lt_add_of_pos_right c.utf8Size_pos
    obtain ⟨hlater, hrest⟩ := pairwise_cons.1 (ih (start + c.utf8Size))
    have hall : ∀ s ∈ startsAfter (start + c.utf8Size) cs, start < s := fun s hs => hnext.trans (hlater s hs)
    simp only [startsAfter]
    split
    · exact .cons (forall_mem_cons.2 ⟨hnext, hall⟩) (ih _)
    · exact .cons hall hrest

/-! ### Bytes -/

/-- The byte of a line feed. -/
def lineFeed : UInt8 := 10

/-- No other character has the byte of a line feed in it. -/
theorem lineFeed_not_mem {c : Char} (hc : c ≠ '\n') : lineFeed ∉ String.utf8EncodeChar c := by
  have hval : c.toNat ≠ 10 := fun h => hc (Char.ext (UInt32.toNat_inj.1 h))
  simp only [String.utf8EncodeChar, lineFeed]
  split
  · next hascii =>
    have hle : c.toNat ≤ 0x7f := hascii
    simp [← UInt8.toNat_inj]
    omega
  · split
    · simp [← UInt8.toNat_inj]
      omega
    · split <;> simp [← UInt8.toNat_inj] <;> omega

/-- The starts up to an offset are as many as the line feeds before it. -/
theorem countP_startsAfter (offset start : Nat) (cs : List Char) :
    (startsAfter start cs).countP (· ≤ offset) =
      ((cs.flatMap String.utf8EncodeChar).take (offset - start)).count lineFeed := by
  induction cs generalizing start with
  | nil => simp [startsAfter]
  | cons c cs ih =>
    have hsub : offset - start - c.utf8Size = offset - (start + c.utf8Size) := Nat.sub_sub ..
    rw [flatMap_cons, take_append, count_append, String.length_utf8EncodeChar, hsub, ← ih]
    simp only [startsAfter]
    split
    · next hc =>
      subst hc
      rw [countP_cons, Nat.add_comm]
      congr 1
      have hbytes : String.utf8EncodeChar '\n' = [lineFeed] := by decide
      have hsize : '\n'.utf8Size = 1 := by decide
      rw [hbytes, hsize]
      by_cases hlt : start < offset
      · rw [take_of_length_le (by simp; omega)]
        simp
        omega
      · simp [Nat.sub_eq_zero_of_le (Nat.le_of_not_lt hlt)]
        omega
    · next hc =>
      have hnone : ((String.utf8EncodeChar c).take (offset - start)).count lineFeed = 0 :=
        count_eq_zero.2 fun h => lineFeed_not_mem hc (mem_of_mem_take h)
      rw [hnone, Nat.zero_add]

/-- **The line of an offset** is one more than the number of line feeds among the bytes before it.
-/
theorem line_ofText (text : String) (offset : Nat) :
    (ofText text).line offset = 1 + (text.toByteArray.data.toList.take offset).count lineFeed := by
  have hbytes : text.toByteArray.data.toList = text.toList.flatMap String.utf8EncodeChar := by
    rw [← String.utf8Encode_toList, utf8Encode, data_toByteArray]
  rw [line, ofText, size_toArray, reached_search_eq_countP (pairwise_cons_startsAfter 0 _),
    countP_cons_of_pos (by simp), countP_startsAfter, hbytes, Nat.sub_zero, Nat.add_comm]

end FlowTyping.Lines
