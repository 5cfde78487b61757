-- SUMMARY: `create_tasks` creates one task for each tile of the product, and none else.
import Mathlib.Algebra.BigOperators.Group.List.Basic
import Mathlib.Data.Multiset.Filter
import Mathlib.Tactic.Linarith
import Mathlib.Tactic.Ring
import Smpp.Model.Mmsim
import Smpp.Tiling.Strips

/-!
# Tasks are tiles

`create_tasks` never enumerates tiles. For each player it adds a block of full
tiles, and decides by a complexity whether to add the tiles along the edges and
the one in the corner. Here a player's blocks are shown to be the grid that the
player's strips span.
-/

open Tiling

namespace Smpp.Mmsim

variable {w : Width} {problemSize sliceSize : ℕ} {userId : UInt8}

/-! ## Complexities -/

/-- An inner dimension `n` contributes an odd number of operations. -/
theorem operations_ne_zero (n : ℕ) : (n * 1 + n - 1 : ℚ) ≠ 0 := by
  intro h
  have hodd : (2 * n : ℚ) = 1 := by linarith
  have hodd' : 2 * n = 1 := by exact_mod_cast hodd
  omega

/-- The test of `create_tasks` looks at a complexity, but all it sees is whether
    the stored area is 0. -/
theorem complexity_ne_zero_iff (m n k : ℕ) :
    (calculateComplexity w m n k).1 ≠ 0 ↔ w.mul m k ≠ 0 := by
  rw [calculateComplexity, mul_ne_zero_iff, Nat.cast_ne_zero]
  exact and_iff_left (operations_ne_zero n)

theorem calculateComplexity_comm (m n k : ℕ) :
    calculateComplexity w m n k = calculateComplexity w k n m := by
  have hnumbers : w.add (w.add (w.mul m n) (w.mul n k)) (w.mul m k) =
      w.add (w.add (w.mul k n) (w.mul n m)) (w.mul k m) := by
    simp only [Width.add, Width.mul, mul_comm, add_comm]
  have harea : w.mul m k = w.mul k m := by rw [Width.mul, Width.mul, mul_comm]
  rw [calculateComplexity, calculateComplexity, hnumbers, harea]

/-- The task of the tile that strips of heights `h` and `h'` span. -/
def tile (w : Width) (problemSize : ℕ) (userId : UInt8) (h h' : ℕ) : SimpleTask :=
  .create w (calculateComplexity w h problemSize h').1 (calculateComplexity w h problemSize h').2
    userId

theorem tile_comm (w : Width) (problemSize : ℕ) (userId : UInt8) (h h' : ℕ) :
    tile w problemSize userId h h' = tile w problemSize userId h' h := by
  rw [tile, tile, calculateComplexity_comm]

theorem calculateComplexities_eq (hs : 0 < sliceSize) (hN : w.Fits problemSize) :
    calculateComplexities w problemSize sliceSize =
      some (problemSize / sliceSize, calculateComplexity w sliceSize problemSize sliceSize,
        if problemSize % sliceSize = 0 then ((0, 0), (0, 0))
        else (calculateComplexity w (problemSize % sliceSize) problemSize sliceSize,
          calculateComplexity w (problemSize % sliceSize) problemSize
            (problemSize % sliceSize))) := by
  have hle : problemSize / sliceSize * sliceSize ≤ problemSize := Nat.div_mul_le_self _ _
  have hfull : w.mul (problemSize / sliceSize) sliceSize = problemSize / sliceSize * sliceSize :=
    (hN.mono hle).mul_eq
  have hpart : w.sub problemSize (w.mul (problemSize / sliceSize) sliceSize) =
      problemSize % sliceSize := by
    rw [hfull, w.sub_of_le hle hN, mul_comm, ← Nat.mod_eq_sub_mul_div]
  simp only [calculateComplexities, Width.div_of_pos w _ hs, Option.bind_eq_bind, Option.bind_some,
    hpart]
  split <;> rfl

/-! ## The loop over the players -/

/-- The tasks that `create_tasks` adds for one player. -/
def playerTasks (w : Width) (problemSize sliceSize : ℕ) (userId : UInt8) : List SimpleTask :=
  List.replicate (w.mul (problemSize / sliceSize) (problemSize / sliceSize))
      (tile w problemSize userId sliceSize sliceSize) ++
    if w.mul (problemSize % sliceSize) sliceSize ≠ 0 then
      List.replicate (w.mul 2 (problemSize / sliceSize))
          (tile w problemSize userId (problemSize % sliceSize) sliceSize) ++
        [tile w problemSize userId (problemSize % sliceSize) (problemSize % sliceSize)]
    else []

theorem playerTasks_of_eq_zero (h : w.mul (problemSize % sliceSize) sliceSize = 0)
    (userId : UInt8) :
    playerTasks w problemSize sliceSize userId =
      List.replicate (w.mul (problemSize / sliceSize) (problemSize / sliceSize))
        (tile w problemSize userId sliceSize sliceSize) := by
  rw [playerTasks, if_neg (not_not.mpr h), List.append_nil]

theorem playerTasks_of_ne_zero (h : w.mul (problemSize % sliceSize) sliceSize ≠ 0)
    (userId : UInt8) :
    playerTasks w problemSize sliceSize userId =
      List.replicate (w.mul (problemSize / sliceSize) (problemSize / sliceSize))
          (tile w problemSize userId sliceSize sliceSize) ++
        (List.replicate (w.mul 2 (problemSize / sliceSize))
            (tile w problemSize userId (problemSize % sliceSize) sliceSize) ++
          [tile w problemSize userId (problemSize % sliceSize) (problemSize % sliceSize)]) := by
  rw [playerTasks, if_pos h]

theorem createTasksLoop_cons (hs : 0 < sliceSize) (hN : w.Fits problemSize) (rest : List ℕ)
    (userId : UInt8) (tasks : List SimpleTask) :
    createTasksLoop w problemSize (sliceSize :: rest) userId tasks =
      createTasksLoop w problemSize rest (userId + 1)
        (tasks ++ playerTasks w problemSize sliceSize userId) := by
  simp only [createTasksLoop, calculateComplexities_eq hs hN, Option.bind_eq_bind,
    Option.bind_some]
  congr 1
  by_cases hrest : problemSize % sliceSize = 0
  · have hzero : w.mul (problemSize % sliceSize) sliceSize = 0 := by
      rw [hrest, Width.mul, zero_mul, Width.wrap_zero]
    rw [playerTasks_of_eq_zero hzero]
    simp only [if_pos hrest, ne_eq, not_true_eq_false, if_false]
    rfl
  · simp only [if_neg hrest, complexity_ne_zero_iff, playerTasks]
    split
    · simp only [List.replicate_one, List.append_assoc]
      rfl
    · rw [List.append_nil]
      rfl

/-- The tasks of players `u`, `u + 1`, …, one player after the other. -/
def tasksFrom (w : Width) (problemSize : ℕ) : List ℕ → ℕ → List SimpleTask
  | [], _ => []
  | s :: rest, u =>
    playerTasks w problemSize s (UInt8.ofNat u) ++ tasksFrom w problemSize rest (u + 1)

theorem tasksFrom_singleton (problemSize sliceSize : ℕ) :
    tasksFrom w problemSize [sliceSize] 0 = playerTasks w problemSize sliceSize 0 :=
  List.append_nil _

theorem createTasksLoop_eq (hN : w.Fits problemSize) (slices : List ℕ) (hs : ∀ s ∈ slices, 0 < s)
    (u : ℕ) (tasks : List SimpleTask) :
    createTasksLoop w problemSize slices (UInt8.ofNat u) tasks =
      some (tasks ++ tasksFrom w problemSize slices u) := by
  induction slices generalizing u tasks with
  | nil => simp [createTasksLoop, tasksFrom]
  | cons s rest ih =>
    have hs' := List.forall_mem_cons.mp hs
    have hnext : UInt8.ofNat u + 1 = UInt8.ofNat (u + 1) := (UInt8.ofNat_add u 1).symm
    rw [createTasksLoop_cons hs'.1 hN, hnext, ih hs'.2, tasksFrom, List.append_assoc]

theorem exists_calculateTotalNumberOfTasks (w : Width) (problemSize : ℕ) (slices : List ℕ)
    (hs : ∀ s ∈ slices, 0 < s) :
    ∃ n, calculateTotalNumberOfTasks w problemSize slices = some n := by
  unfold calculateTotalNumberOfTasks
  generalize 0 = accumulatedSize
  induction slices generalizing accumulatedSize with
  | nil => exact ⟨accumulatedSize, rfl⟩
  | cons s rest ih =>
    have hs' := List.forall_mem_cons.mp hs
    have hn : ∃ n, calculateNumberOfTasks w problemSize s = some n := by
      simp only [calculateNumberOfTasks, Width.div_of_pos w _ hs'.1, Width.mod_of_pos w _ hs'.1,
        Option.bind_eq_bind, Option.bind_some]
      split <;> exact ⟨_, rfl⟩
    obtain ⟨n, hn⟩ := hn
    obtain ⟨m, hm⟩ := ih hs'.2 (w.add accumulatedSize n)
    refine ⟨m, ?_⟩
    rw [List.foldlM_cons, hn]
    exact hm

/-- The number of tasks is undefined as soon as some slice size is zero. -/
theorem pos_of_createTasks {slices : List ℕ} {tasks : List SimpleTask}
    (h : createTasks w problemSize slices = some tasks) : ∀ s ∈ slices, 0 < s := by
  have htotal : ∀ accumulatedSize n, slices.foldlM (fun accumulatedSize sliceSize => do
        let n ← calculateNumberOfTasks w problemSize sliceSize
        some (w.add accumulatedSize n)) accumulatedSize = some n → ∀ s ∈ slices, 0 < s := by
    clear h
    induction slices with
    | nil =>
      intro _ _ _ s hs
      cases hs
    | cons s rest ih =>
      intro accumulatedSize n hn s' hs'
      simp only [List.foldlM_cons, Option.bind_eq_bind, Option.bind_eq_some_iff] at hn
      obtain ⟨acc, ⟨count, hcount, -⟩, hrest⟩ := hn
      rcases List.mem_cons.mp hs' with rfl | hs'
      · apply Nat.pos_of_ne_zero
        rintro rfl
        simp [calculateNumberOfTasks, Width.div] at hcount
      · exact ih acc n hrest s' hs'
  simp only [createTasks, Option.bind_eq_bind, Option.bind_eq_some_iff] at h
  obtain ⟨n, hn, -⟩ := h
  exact htotal 0 n hn

theorem createTasks_eq (hN : w.Fits problemSize) (slices : List ℕ) (hs : ∀ s ∈ slices, 0 < s) :
    createTasks w problemSize slices = some (tasksFrom w problemSize slices 0) := by
  obtain ⟨n, hn⟩ := exists_calculateTotalNumberOfTasks w problemSize slices hs
  rw [createTasks, hn]
  exact createTasksLoop_eq hN slices hs 0 []

theorem createTasks_unbounded (problemSize : ℕ) {slices : List ℕ} (hs : ∀ s ∈ slices, 0 < s) :
    createTasks .unbounded problemSize slices =
      some (tasksFrom .unbounded problemSize slices 0) :=
  createTasks_eq (w := .unbounded) trivial slices hs

/-! ## Whose tasks they are -/

/-- Whatever wraps, the tasks of a player are tiles. -/
theorem exists_eq_tile_of_mem {t : SimpleTask}
    (ht : t ∈ playerTasks w problemSize sliceSize userId) :
    ∃ h h', t = tile w problemSize userId h h' := by
  rcases List.mem_append.mp ht with ht | ht
  · exact ⟨_, _, List.eq_of_mem_replicate ht⟩
  · split at ht
    · rcases List.mem_append.mp ht with ht | ht
      · exact ⟨_, _, List.eq_of_mem_replicate ht⟩
      · exact ⟨_, _, List.mem_singleton.mp ht⟩
    · cases ht

theorem userid_of_mem_playerTasks {t : SimpleTask}
    (ht : t ∈ playerTasks w problemSize sliceSize userId) : t.userid = userId := by
  obtain ⟨h, h', rfl⟩ := exists_eq_tile_of_mem ht
  rfl

theorem toNat_userId {u : ℕ} (hu : u < 256) : (UInt8.ofNat u).toNat = u :=
  UInt8.toNat_ofNat_of_lt' hu

theorem mem_tasksFrom {slices : List ℕ} {u : ℕ} {t : SimpleTask} :
    t ∈ tasksFrom w problemSize slices u ↔
      ∃ (k : ℕ) (hk : k < slices.length),
        t ∈ playerTasks w problemSize slices[k] (UInt8.ofNat (u + k)) := by
  induction slices generalizing u with
  | nil => simp [tasksFrom]
  | cons s rest ih =>
    rw [tasksFrom, List.mem_append, ih]
    constructor
    · rintro (ht | ⟨k, hk, ht⟩)
      · exact ⟨0, Nat.succ_pos _, ht⟩
      · refine ⟨k + 1, Nat.succ_lt_succ hk, ?_⟩
        rwa [add_right_comm, add_assoc] at ht
    · rintro ⟨k, hk, ht⟩
      cases k with
      | zero => exact .inl ht
      | succ k =>
        refine .inr ⟨k, Nat.lt_of_succ_lt_succ hk, ?_⟩
        rwa [add_right_comm, add_assoc]

/-- As long as user ids do not wrap around, a player's id is its position. -/
theorem userid_of_mem_tasksFrom {slices : List ℕ} {u : ℕ} (hlen : u + slices.length ≤ 256)
    {t : SimpleTask} (ht : t ∈ tasksFrom w problemSize slices u) :
    u ≤ t.userid.toNat ∧ t.userid.toNat < u + slices.length := by
  obtain ⟨k, hk, ht⟩ := mem_tasksFrom.mp ht
  rw [userid_of_mem_playerTasks ht, toNat_userId (by omega)]
  exact ⟨Nat.le_add_right u k, Nat.add_lt_add_left hk u⟩

theorem userid_lt_of_mem_tasksFrom {slices : List ℕ} (hlen : slices.length ≤ 255) :
    ∀ t ∈ tasksFrom w problemSize slices 0, t.userid < UInt8.ofNat slices.length := by
  intro t ht
  have hlt := (userid_of_mem_tasksFrom (by omega) ht).2
  rw [UInt8.lt_iff_toNat_lt, toNat_userId (by omega)]
  rwa [zero_add] at hlt

/-- … and the player's tasks are the ones with this id. -/
theorem filter_tasksFrom {slices : List ℕ} {u k : ℕ} (hlen : u + slices.length ≤ 256)
    (hk : k < slices.length) :
    (tasksFrom w problemSize slices u).filter (·.userid.toNat = u + k) =
      playerTasks w problemSize slices[k] (UInt8.ofNat (u + k)) := by
  induction slices generalizing u k with
  | nil => cases hk
  | cons s rest ih =>
    rw [List.length_cons] at hlen
    have hfirst : ∀ t ∈ playerTasks w problemSize s (UInt8.ofNat u), t.userid.toNat = u := by
      intro t ht
      rw [userid_of_mem_playerTasks ht]
      exact toNat_userId (by omega)
    have hrest : ∀ t ∈ tasksFrom w problemSize rest (u + 1), u + 1 ≤ t.userid.toNat :=
      fun t ht => (userid_of_mem_tasksFrom (by omega) ht).1
    rw [tasksFrom, List.filter_append]
    cases k with
    | zero =>
      rw [List.filter_eq_self.mpr, List.filter_eq_nil_iff.mpr, List.append_nil]
      · rfl
      · intro t ht
        have hlt := hrest t ht
        simpa using fun h => by omega
      · intro t ht
        simpa using hfirst t ht
    | succ k =>
      have hshift : u + (k + 1) = u + 1 + k := by omega
      rw [List.filter_eq_nil_iff.mpr, List.nil_append, hshift,
        ih (by omega) (Nat.lt_of_succ_lt_succ hk)]
      · rfl
      · intro t ht
        have hid := hfirst t ht
        simpa using fun h => by omega

theorem filter_tasksFrom_zero {slices : List ℕ} {u : ℕ} (hlen : slices.length ≤ 256)
    (hu : u < slices.length) :
    (tasksFrom w problemSize slices 0).filter (·.userid.toNat = u) =
      playerTasks w problemSize slices[u] (UInt8.ofNat u) := by
  have hfilter : (tasksFrom w problemSize slices 0).filter (·.userid.toNat = 0 + u) =
      playerTasks w problemSize slices[u] (UInt8.ofNat (0 + u)) :=
    filter_tasksFrom (by rwa [zero_add]) hu
  rwa [zero_add] at hfilter

/-! ## The blocks are the grid -/

theorem coe_playerTasks (hs : 0 < sliceSize) :
    (playerTasks .unbounded problemSize sliceSize userId : Multiset SimpleTask) =
      grid (tile .unbounded problemSize userId) problemSize sliceSize := by
  rw [grid_eq_blocks (tile_comm .unbounded problemSize userId) hs]
  by_cases hrest : problemSize % sliceSize = 0
  · have harea : Width.unbounded.mul (problemSize % sliceSize) sliceSize = 0 := by
      rw [hrest, Width.unbounded_mul, zero_mul]
    rw [playerTasks_of_eq_zero harea, if_pos hrest, add_zero, Multiset.coe_replicate]
    rfl
  · have harea : Width.unbounded.mul (problemSize % sliceSize) sliceSize ≠ 0 :=
      mul_ne_zero hrest hs.ne'
    rw [playerTasks_of_ne_zero harea, if_neg hrest, ← Multiset.coe_add, ← Multiset.coe_add,
      Multiset.coe_replicate, Multiset.coe_replicate, Multiset.coe_singleton]
    rfl

theorem mem_playerTasks (hs : 0 < sliceSize) {t : SimpleTask} :
    t ∈ playerTasks .unbounded problemSize sliceSize userId ↔
      ∃ h ∈ heights problemSize sliceSize, ∃ h' ∈ heights problemSize sliceSize,
        tile .unbounded problemSize userId h h' = t := by
  rw [← Multiset.mem_coe, coe_playerTasks hs, mem_grid]

theorem length_playerTasks (hs : 0 < sliceSize) :
    (playerTasks .unbounded problemSize sliceSize userId).length =
      (problemSize ⌈/⌉ sliceSize) ^ 2 := by
  rw [← Multiset.coe_card, coe_playerTasks hs, card_grid]

theorem length_tasksFrom {slices : List ℕ} (hs : ∀ s ∈ slices, 0 < s) (u : ℕ) :
    (tasksFrom .unbounded problemSize slices u).length =
      (slices.map fun s => (problemSize ⌈/⌉ s) ^ 2).sum := by
  induction slices generalizing u with
  | nil => rfl
  | cons s rest ih =>
    have hs' := List.forall_mem_cons.mp hs
    rw [tasksFrom, List.length_append, length_playerTasks hs'.1, ih hs'.2, List.map_cons,
      List.sum_cons]

/-! ## The number of tasks -/

/-- The counting formula counts strips. -/
theorem calculateNumberOfTasks_eq (hs : 0 < sliceSize) :
    calculateNumberOfTasks .unbounded problemSize sliceSize =
      some ((problemSize ⌈/⌉ sliceSize) ^ 2) := by
  simp only [calculateNumberOfTasks, Width.div_of_pos _ _ hs, Width.mod_of_pos _ _ hs,
    Option.bind_eq_bind, Option.bind_some, Width.unbounded_add, Width.unbounded_mul, ceilDiv_eq hs]
  by_cases hrest : problemSize % sliceSize = 0
  · rw [if_pos hrest, if_neg (not_not.mpr hrest), add_zero, sq]
  · rw [if_neg hrest, if_pos hrest]
    congr 1
    ring

theorem calculateTotalNumberOfTasks_eq {slices : List ℕ} (hs : ∀ s ∈ slices, 0 < s) :
    calculateTotalNumberOfTasks .unbounded problemSize slices =
      some ((slices.map fun s => (problemSize ⌈/⌉ s) ^ 2).sum) := by
  have hacc : ∀ accumulatedSize, slices.foldlM (fun accumulatedSize sliceSize => do
        let n ← calculateNumberOfTasks .unbounded problemSize sliceSize
        some (Width.unbounded.add accumulatedSize n)) accumulatedSize =
      some (accumulatedSize + (slices.map fun s => (problemSize ⌈/⌉ s) ^ 2).sum) := by
    induction slices with
    | nil => intro accumulatedSize; rfl
    | cons s rest ih =>
      intro accumulatedSize
      have hs' := List.forall_mem_cons.mp hs
      rw [List.foldlM_cons, calculateNumberOfTasks_eq hs'.1, List.map_cons, List.sum_cons,
        ← add_assoc]
      exact ih hs'.2 _
  rw [calculateTotalNumberOfTasks, hacc, zero_add]

/-- In exact arithmetic the tasks of player `u` are the tiles of the product cut
    by slice size `u`, one task a tile; nobody else has tasks, and their number
    is the one calculated in advance. -/
theorem createTasks_tiles (problemSize : ℕ) (slices : List ℕ) (hlen : slices.length ≤ 256)
    (hs : ∀ s ∈ slices, 1 ≤ s) :
    ∃ tasks, createTasks .unbounded problemSize slices = some tasks ∧
      (∀ (u : ℕ) (hu : u < slices.length),
        (tasks.filter (·.userid.toNat = u) : Multiset SimpleTask) =
          (Multiset.range (problemSize ⌈/⌉ slices[u]) ×ˢ
              Multiset.range (problemSize ⌈/⌉ slices[u])).map fun p =>
            let c := calculateComplexity .unbounded (stripHeight problemSize slices[u] p.1)
              problemSize (stripHeight problemSize slices[u] p.2)
            SimpleTask.create .unbounded c.1 c.2 (UInt8.ofNat u)) ∧
      (∀ t ∈ tasks, t.userid.toNat < slices.length) ∧
      calculateTotalNumberOfTasks .unbounded problemSize slices = some tasks.length ∧
      tasks.length = (slices.map fun s => (problemSize ⌈/⌉ s) ^ 2).sum := by
  have hlen' : 0 + slices.length ≤ 256 := by rwa [zero_add]
  refine ⟨_, createTasks_unbounded problemSize hs, fun u hu => ?_, fun t ht => ?_,
    ?_, length_tasksFrom hs 0⟩
  · rw [filter_tasksFrom_zero hlen hu, coe_playerTasks (hs _ (List.getElem_mem hu))]
    rfl
  · have hlt := (userid_of_mem_tasksFrom hlen' ht).2
    rwa [zero_add] at hlt
  · rw [length_tasksFrom hs, calculateTotalNumberOfTasks_eq hs]

theorem createTasks_tiles_two_players :
    ∃ tasks, createTasks .unbounded 5 [2, 7] = some tasks ∧
      calculateTotalNumberOfTasks .unbounded 5 [2, 7] = some tasks.length := by
  obtain ⟨tasks, htasks, -, -, htotal, -⟩ := createTasks_tiles 5 [2, 7] (by decide) (by decide)
  exact ⟨tasks, htasks, htotal⟩

end Smpp.Mmsim
