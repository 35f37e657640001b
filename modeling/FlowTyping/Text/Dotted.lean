/-
Text made of parts with a separator between them, such as dotted names and slashed paths.

`split` always gives at least one part, and the empty text has one empty part; joining the parts
gives the text back (`join_split`), so nothing is lost by working on parts.
-/

namespace FlowTyping.Text

/-- The runs of characters between separators, empty runs included. -/
def splitChars (sep : Char) : List Char → List (List Char)
  | [] => [[]]
  | c :: cs =>
    if c = sep then [] :: splitChars sep cs
    else match splitChars sep cs with
      | [] => [[c]]
      | run :: runs => (c :: run) :: runs

/-- The runs with a separator between each two. -/
def joinChars (sep : Char) : List (List Char) → List Char
  | [] => []
  | [run] => run
  | run :: runs => run ++ sep :: joinChars sep runs

def split (sep : Char) (text : String) : List String :=
  (splitChars sep text.toList).map String.ofList

/-- The parts with a separator between each two. -/
def join (sep : Char) (parts : List String) : String :=
  String.ofList (joinChars sep (parts.map String.toList))

def dotted (name : String) : List String := split '.' name

def undotted (parts : List String) : String := join '.' parts

/-! ### Splitting loses nothing -/

theorem splitChars_ne_nil (sep : Char) (cs : List Char) : splitChars sep cs ≠ [] := by
  cases cs with
  | nil => simp [splitChars]
  | cons c cs =>
    simp only [splitChars]
    split
    · simp
    · split <;> simp

theorem joinChars_splitChars (sep : Char) (cs : List Char) :
    joinChars sep (splitChars sep cs) = cs := by
  induction cs with
  | nil => rfl
  | cons c cs ih =>
    obtain ⟨run, runs, h⟩ := List.exists_cons_of_ne_nil (splitChars_ne_nil sep cs)
    rw [h] at ih
    simp only [splitChars, h]
    split
    · next hc =>
      rw [joinChars, ih, hc]
      · rfl
      · simp
    · cases runs with
      | nil =>
        rw [joinChars] at ih ⊢
        rw [ih]
      | cons r rs =>
        rw [joinChars] at ih ⊢
        · rw [List.cons_append, ih]
        · simp
        · simp

theorem join_split (sep : Char) (text : String) : join sep (split sep text) = text := by
  have hmap : ((splitChars sep text.toList).map String.ofList).map String.toList =
      splitChars sep text.toList := by
    have hid : String.toList ∘ String.ofList = id := funext fun _ => String.toList_ofList
    rw [List.map_map, hid, List.map_id]
  rw [join, split, hmap, joinChars_splitChars, String.ofList_toList]

theorem split_ne_nil (sep : Char) (text : String) : split sep text ≠ [] := by
  simp [split, splitChars_ne_nil]

end FlowTyping.Text
