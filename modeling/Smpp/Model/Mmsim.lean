-- SUMMARY: Task generation for a blocked matrix multiplication, at a chosen width of `size_t`.
import Smpp.Model.Task

/-!
# Matrix multiplication tasks

`create_tasks` cuts an `N × N` product into square tiles, one slice size for each
player, and adds the tiles to the task vector in blocks of equal tasks. All
functions take the width of `size_t`; `none` is a division by a zero slice size.
-/

namespace Smpp.Mmsim

/-- `calculate_number_of_tasks(problem_size, slice_size)`. -/
def calculateNumberOfTasks (w : Width) (problemSize sliceSize : ℕ) : Option ℕ := do
  let nFull ← w.div problemSize sliceSize
  let rest ← w.mod problemSize sliceSize
  if rest ≠ 0 then some (w.add (w.mul nFull (w.add nFull 2)) 1)
  else some (w.mul nFull nFull)

/-- `calculate_number_of_tasks(problem_size, slice_sizes)`. -/
def calculateTotalNumberOfTasks (w : Width) (problemSize : ℕ) (sliceSizes : List ℕ) : Option ℕ :=
  sliceSizes.foldlM
    (fun accumulatedSize sliceSize => do
      let n ← calculateNumberOfTasks w problemSize sliceSize
      some (w.add accumulatedSize n))
    0

/-- `compl_t`: a complexity, and the number of matrix entries to transfer. -/
abbrev Compl := ℚ × ℕ

/-- Multiply an `m × n` by an `n × k` matrix. -/
def calculateComplexity (w : Width) (m n k : ℕ) (multiplicationToAddition : ℚ := 1) : Compl :=
  (w.mul m k * (n * multiplicationToAddition + n - 1),
    w.add (w.add (w.mul m n) (w.mul n k)) (w.mul m k))

/-- The number of full slices, and the complexities of a full tile, of a tile
    that is partial in one direction, and of one that is partial in both. -/
def calculateComplexities (w : Width) (problemSize sliceSize : ℕ) :
    Option (ℕ × Compl × Compl × Compl) := do
  let nFull ← w.div problemSize sliceSize
  let part := w.sub problemSize (w.mul nFull sliceSize)
  let p1 := calculateComplexity w sliceSize problemSize sliceSize
  if part = 0 then some (nFull, p1, (0, 0), (0, 0))
  else
    let p2 := calculateComplexity w part problemSize sliceSize
    let p3 := calculateComplexity w part problemSize part
    some (nFull, p1, p2, p3)

/-- The loop of `create_tasks` over the players' slice sizes, with the tasks
    inserted so far and the id of the next player. -/
def createTasksLoop (w : Width) (problemSize : ℕ) :
    List ℕ → UInt8 → List SimpleTask → Option (List SimpleTask)
  | [], _, tasks => some tasks
  | sliceSize :: rest, userId, tasks => do
    let (n, p1, p2, p3) ← calculateComplexities w problemSize sliceSize
    let tasks := tasks ++ List.replicate (w.mul n n) (.create w p1.1 p1.2 userId)
    let tasks :=
      if p2.1 ≠ 0 then
        tasks ++ List.replicate (w.mul 2 n) (.create w p2.1 p2.2 userId)
          ++ List.replicate 1 (.create w p3.1 p3.2 userId)
      else tasks
    createTasksLoop w problemSize rest (userId + 1) tasks

/-- `create_tasks`. The number of tasks is only used to reserve capacity. -/
def createTasks (w : Width) (problemSize : ℕ) (sliceSizes : List ℕ) :
    Option (List SimpleTask) := do
  let _nTasks ← calculateTotalNumberOfTasks w problemSize sliceSizes
  createTasksLoop w problemSize sliceSizes 0 []

end Smpp.Mmsim
