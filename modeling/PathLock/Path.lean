/-!
# Resource names

A resource is named by text whose segments are separated by `/`. Names given by callers are brought
to one clean absolute form before they are compared.

* `Path.clean`: the clean absolute form of any text.
* `Path.parent`, `Path.ancestors`: one level up, and all levels up to `/`.
* `Path.walk`: the levels seen by a visitor that may stop on the way up.
* `Path.below`: whether one name lies strictly below another, read off the texts alone.
-/

namespace PathLock.Path

/-! ## Clean names -/

/-- What a segment does to the segments before it, the latest of them first: empty and `.` segments
are dropped, `..` takes back the latest segment if there is one. -/
def enter (before : List (List Char)) (segment : List Char) : List (List Char) :=
  if segment = [] ∨ segment = ['.'] then before
  else if segment = ['.', '.'] then before.tail
  else segment :: before

/-- The absolute name with the given segments. -/
def absolute : List (List Char) → List Char
  | [] => ['/']
  | segments => segments.flatMap ('/' :: ·)

/-- The segments that are left of a name once each has been entered in turn. -/
def cleanSegments (name : List Char) : List (List Char) :=
  ((name.splitOn '/').foldl enter []).reverse

/-- The clean absolute form of a name: one leading `/`, no empty, `.` or `..` segments and no
trailing `/` unless the name is `/` itself. A `..` never climbs above `/`. -/
def clean (name : String) : String :=
  String.ofList (absolute (cleanSegments name.toList))

/-! ## The way up -/

/-- What stands before the last `/`; nothing if there is no `/`. -/
def front (name : List Char) : List Char :=
  (name.reverse.dropWhile (· ≠ '/')).tail.reverse

/-- The front of a name, or `/` if that is empty. -/
def parentChars (name : List Char) : List Char :=
  if front name = [] then ['/'] else front name

/-- The parent of a name. The parent of `/`, and of any name without a later `/`, is `/`. -/
def parent (name : String) : String :=
  String.ofList (parentChars name.toList)

theorem length_front_lt {name : List Char} (h : front name ≠ []) :
    (front name).length < name.length := by
  have hle : (name.reverse.dropWhile (· ≠ '/')).length ≤ name.length := by
    simpa using (List.dropWhile_sublist (l := name.reverse) (· ≠ '/')).length_le
  have hpos : 0 < (front name).length := List.length_pos_iff.2 h
  simp only [front, List.length_reverse, List.length_tail] at hpos ⊢
  omega

theorem parentChars_eq_or_length_lt (name : List Char) :
    parentChars name = ['/'] ∨ (parentChars name).length < name.length := by
  unfold parentChars
  split
  · exact .inl rfl
  · rename_i h
    exact .inr (length_front_lt h)

/-- The name and each level above it, ending with `/`. -/
def ancestorsChars (name : List Char) : List (List Char) :=
  if name = ['/'] then [name] else name :: ancestorsChars (parentChars name)
termination_by if name = ['/'] then 0 else name.length + 1
decreasing_by
  rename_i hroot
  rw [if_neg hroot]
  rcases parentChars_eq_or_length_lt name with h | h
  · simp [h]
  · split <;> omega

/-- A name and each of its ancestors, nearest first, ending with `/`. -/
def ancestors (name : String) : List String :=
  (ancestorsChars name.toList).map String.ofList

/-- Visits levels in order until one halts the visit. Answers with the levels visited and whether
the visit was halted. -/
def visit (halts : String → Bool → Bool) : List (String × Bool) → List (String × Bool) × Bool
  | [] => ([], false)
  | (level, first) :: rest =>
    if halts level first then ([(level, first)], true)
    else
      let (seen, halted) := visit halts rest
      ((level, first) :: seen, halted)

/-- Walks from a name up to `/`. The visitor is told whether a level is the name itself. -/
def walk (name : String) (halts : String → Bool → Bool) : List (String × Bool) × Bool :=
  visit halts ((ancestors name).mapIdx fun depth level => (level, depth == 0))

/-! ## Containment -/

/-- Whether `name` lies strictly below `root` as far as the two texts tell. -/
def below (root name : String) : Bool :=
  root == "/" || (root.toList ++ ['/']).isPrefixOf name.toList

end PathLock.Path
