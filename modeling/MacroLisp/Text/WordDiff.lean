/-!
# Word differences

`changes` compares two texts word by word: words that a longest common subsequence shares, words
removed and words added. Words are separated by single spaces, so there are empty ones. `distance`
counts the words that are not shared.
-/

namespace MacroLisp.Text.WordDiff

inductive Change where
  | same (text : String)
  | removed (text : String)
  | added (text : String)
deriving DecidableEq

def words (s : String) : List String := s.splitOn " "

def unwords (ws : List String) : String := " ".intercalate ws

/-- The length of the common subsequence that ends at row `i` and column `j`, given all cells
before it, row by row. -/
def cell (a b : Array String) (table : Array Nat) (i j : Nat) : Nat :=
  let width := b.size
  let up := table.getD ((i - 1) * width + j) 0
  let left := table.getD (i * width + j - 1) 0
  if a[i]? = b[j]? then
    if i = 0 ∨ j = 0 then 1 else table.getD ((i - 1) * width + j - 1) 0 + 1
  else if i = 0 then
    if j = 0 then 0 else left
  else if j = 0 then up
  else max left up

def lengths (a b : Array String) : Array Nat :=
  (List.range a.size).foldl (fun table i =>
    (List.range b.size).foldl (fun table j => table.push (cell a b table i j)) table) #[]

/-- Walks back from the words numbered `i - 1` and `j - 1`, putting shared words in front of those
found so far. In the first column the cell to the left is the last one of the row above. -/
def walkBack (a b : Array String) (table : Array Nat) : Nat → Nat → Nat → List String → List String
  | 0, _, _, found => found
  | _ + 1, 0, _, found => found
  | _ + 1, _, 0, found => found
  | steps + 1, i + 1, j + 1, found =>
    if a[i]? = b[j]? then walkBack a b table steps i j (a[i]?.toList ++ found)
    else if i = 0 ∧ j = 0 then found
    else if i = 0 ∨ table.getD ((i - 1) * b.size + j) 0 < table.getD (i * b.size + j - 1) 0 then
      walkBack a b table steps (i + 1) j found
    else walkBack a b table steps i (j + 1) found

def common (a b : List String) : List String :=
  walkBack a.toArray b.toArray (lengths a.toArray b.toArray) (a.length + b.length) a.length b.length
    []

/-- The words that both sides share with the common ones, and what is left of all three. -/
def splitShared : List String → List String → List String →
    List String × List String × List String × List String
  | a :: as, b :: bs, c :: cs =>
    if a = c ∧ b = c then
      let (shared, rest) := splitShared as bs cs
      (c :: shared, rest)
    else ([], a :: as, b :: bs, c :: cs)
  | as, bs, cs => ([], as, bs, cs)

def runOf (kind : String → Change) : List String → List Change
  | [] => []
  | ws => [kind (unwords ws)]

def merge : Nat → List String → List String → List String → List Change
  | 0, _, _, _ => []
  | _ + 1, [], [], _ => []
  | rounds + 1, as, bs, cs =>
    let (shared, as, bs, cs) := splitShared as bs cs
    let differs := fun w => some w ≠ cs.head?
    runOf .same shared ++ runOf .removed (as.takeWhile differs) ++
      runOf .added (bs.takeWhile differs) ++
      merge rounds (as.dropWhile differs) (bs.dropWhile differs) cs

/-- Common words that join to an empty text count as none. -/
def changes (before after : String) : List Change :=
  let a := words before
  let b := words after
  let joined := unwords (common a b)
  merge (a.length + b.length + 1) a b (if joined = "" then [] else words joined)

def distance (before after : String) : Nat :=
  (words before).length + (words after).length -
    2 * (common (words before) (words after)).length

end MacroLisp.Text.WordDiff
