-- SUMMARY: A player whose tasks all go before those of the others is simulated as if alone, and players with smaller tiles are done first.
import Smpp.Correctness.Causality
import Smpp.Correctness.Competition
import Smpp.Correctness.FlowTime
import Smpp.Correctness.Rows

/-!
# Precedence between players

The sort puts the tasks of a player in front of all others if the task order says so.
By causality such a player does not notice the others. When it is the order of sizes
that puts one player in front, on equal processors, all of this player's tasks are also
done first.
-/

open ListScheduling Tiling

/-! ## Sorted lists -/

/-- Elements that go before all others stand in front of them. -/
theorem Comparator.Sorted.eq_filter_append {α : Type*} {cmp : Comparator α} {q : α → Bool}
    {l : List α} (h : cmp.Sorted l)
    (hbefore : ∀ a ∈ l, ∀ b ∈ l, q a = true → q b = false → cmp a b = true) :
    l = l.filter q ++ l.filter (fun x => !q x) := by
  induction l with
  | nil => rfl
  | cons a rest ih =>
    obtain ⟨ha, hrest⟩ := List.pairwise_cons.mp h
    have ih := ih hrest (fun b hb c hc =>
      hbefore b (List.mem_cons_of_mem _ hb) c (List.mem_cons_of_mem _ hc))
    cases hqa : q a with
    | true => simpa [hqa] using ih
    | false =>
      -- behind an element that is not selected there is none that is
      have hnone : ∀ b ∈ rest, q b = false := by
        intro b hb
        by_contra hqb
        have hlt := hbefore b (List.mem_cons_of_mem _ hb) a List.mem_cons_self (by simpa using hqb)
          hqa
        rw [ha b hb] at hlt
        cases hlt
      have hfilter : rest.filter q = [] := by
        apply List.filter_eq_nil_iff.mpr
        intro b hb
        simp [hnone b hb]
      have hall : rest.filter (fun x => !q x) = rest := by
        apply List.filter_eq_self.mpr
        intro b hb
        simp [hnone b hb]
      simp [hqa, hfilter, hall]

/-- In a list that has the selected elements in front their number tells which these
    are. -/
theorem apply_getElem_iff_of_front {α : Type*} {q : α → Bool} {l : List α}
    (h : l = l.filter q ++ l.filter (fun x => !q x)) {k : ℕ} (hk : k < l.length) :
    q l[k] = true ↔ k < (l.filter q).length := by
  have hget : (l.filter q ++ l.filter (fun x => !q x))[k]? = some l[k] := by
    rw [← h]
    exact List.getElem?_eq_getElem hk
  constructor
  · intro hq
    by_contra hge
    rw [List.getElem?_append_right (Nat.not_lt.mp hge)] at hget
    have hmem := (List.mem_filter.mp (List.mem_of_getElem? hget)).2
    rw [hq] at hmem
    cases hmem
  · intro hlt
    rw [List.getElem?_append_left hlt] at hget
    exact (List.mem_filter.mp (List.mem_of_getElem? hget)).2

namespace Smpp

open TaskProcessorWithTransfer

/-! ## A player in front of all others -/

section Front

variable {tp : TaskProcessorWithTransfer} {procs : List Processor} {tasks own : List SimpleTask}
  {w : ℕ → ℕ} {out out' : List (TaskCompletition TaskPtr)} {u u' : UInt8} {t t' : ℚ}

/-- A user who has exactly the tasks in front, and whose completions there are those of
    another log in which all tasks are the user's, has the same finishing time in both. -/
theorem IsFinishingTime.eq_of_early (h : IsFinishingTime tasks out u t)
    (h' : IsFinishingTime own out' u' t') (hown : own ≠ [])
    (hperm : (early own.length out).Perm out') (hlog : ∀ c ∈ out, c.task < tasks.length)
    (hlog' : ∀ c ∈ out', c.task < own.length)
    (hfront : ∀ k (hk : k < tasks.length), tasks[k].userid = u ↔ k < own.length)
    (hall : ∀ task ∈ own, task.userid = u') (hlen : own.length ≤ tasks.length) : t = t' := by
  have hpos : 0 < own.length := List.length_pos_iff.mpr hown
  have huser : ∀ c ∈ out, userOf tasks c = some u ↔ c.task < own.length := by
    intro c hc
    rw [← hfront c.task (hlog c hc), userOf, List.getElem?_eq_getElem (hlog c hc)]
    simp
  have huser' : ∀ c ∈ out', userOf own c = some u' := by
    intro c hc
    rw [userOf, List.getElem?_eq_getElem (hlog' c hc), Option.map_some,
      hall _ (List.getElem_mem _)]
  have hsame : {x | ∃ c ∈ out, userOf tasks c = some u ∧ c.timeEnd = x} =
      {x | ∃ c ∈ out', userOf own c = some u' ∧ c.timeEnd = x} := by
    ext x
    constructor
    · rintro ⟨c, hc, hcu, rfl⟩
      have hmem : c ∈ out' :=
        hperm.mem_iff.mp (List.mem_filter.mpr ⟨hc, decide_eq_true ((huser c hc).mp hcu)⟩)
      exact ⟨c, hmem, huser' c hmem, rfl⟩
    · rintro ⟨c, hc, -, rfl⟩
      obtain ⟨hmem, hlt⟩ := List.mem_filter.mp (hperm.mem_iff.mpr hc)
      exact ⟨c, hmem, (huser c hmem).mpr (of_decide_eq_true hlt), rfl⟩
  have hgreatest := h.1 ⟨_, List.getElem_mem (hpos.trans_le hlen), (hfront 0 _).mpr hpos⟩
  have hgreatest' := h'.1 ⟨_, List.getElem_mem hpos, hall _ (List.getElem_mem hpos)⟩
  rw [hsame] at hgreatest
  exact hgreatest.unique hgreatest'

end Front

/-- Any processors and any number of players: one whose tasks all go before those of the
    others gets the time it takes alone. -/
theorem preferred_player_unaffected (std std' : StdAlgorithms) (hheap : std.SameHeap std')
    (g g' : Shuffle) (procs : List Processor) (procComp : Comparator Processor)
    (taskComp : Comparator SimpleTask) (tp : TaskProcessorWithTransfer)
    (shuffle shuffle' returnProcessed : Bool) (problemSize : ℕ) (slices : List ℕ)
    (hN : 1 ≤ problemSize) (hs : ∀ s ∈ slices, 1 ≤ s) (hhint : slices.length ≤ 255)
    (hprocs : procs ≠ []) (hmips : ∀ p ∈ procs, 0 < p.mips) (hprocComp : ByMips procComp)
    (hcomp : ByComplexity taskComp) (hbandwidth : 0 < tp.bandwidth)
    (hsetup : 0 ≤ tp.connectionSetup) (u : ℕ) (hu : u < slices.length)
    (hpreferred : ∀ a ∈ Mmsim.tasksFrom .unbounded problemSize slices 0,
      ∀ b ∈ Mmsim.tasksFrom .unbounded problemSize slices 0,
        a.userid.toNat = u → b.userid.toNat ≠ u → taskComp a b = true) :
    ∃ tasks tasks' r r' t, Mmsim.createTasks .unbounded problemSize slices = some tasks ∧
      Mmsim.createTasks .unbounded problemSize [slices[u]] = some tasks' ∧
      simulate std g procs procComp tasks taskComp tp (UInt8.ofNat slices.length) shuffle
        returnProcessed = some r ∧
      simulate std' g' procs procComp tasks' taskComp tp 1 shuffle' returnProcessed = some r' ∧
      r.times[u]? = some t ∧ r'.times = [t] := by
  have hslice : ∀ s ∈ [slices[u]], 1 ≤ s :=
    List.forall_mem_singleton.mpr (hs _ (List.getElem_mem hu))
  have husers : ∀ t ∈ Mmsim.tasksFrom .unbounded problemSize [slices[u]] 0, t.userid < 1 :=
    Mmsim.userid_lt_of_mem_tasksFrom Nat.one_le_ofNat
  obtain ⟨r, out, w, hsim, hcall, -, h⟩ := exists_simulated std g procs procComp
    (Mmsim.tasksFrom .unbounded problemSize slices 0) taskComp tp (UInt8.ofNat slices.length)
    shuffle returnProcessed hprocs hmips (fun t ht => Mmsim.complexity_nonneg_of_mem_tasksFrom ht)
    (Mmsim.userid_lt_of_mem_tasksFrom hhint) hbandwidth hsetup
  obtain ⟨r', out', w', hsim', hcall', -, h'⟩ := exists_simulated std' g' procs procComp
    (Mmsim.tasksFrom .unbounded problemSize [slices[u]] 0) taskComp tp 1 shuffle' returnProcessed
    hprocs hmips (fun t ht => Mmsim.complexity_nonneg_of_mem_tasksFrom ht)
    husers hbandwidth hsetup
  -- the sorted tasks have those of the player in front
  let q : SimpleTask → Bool := fun t => decide (t.userid.toNat = u)
  have huid : (UInt8.ofNat u).toNat = u := Mmsim.toNat_userId (by omega)
  have hq : ∀ t : SimpleTask, q t = true ↔ t.userid = UInt8.ofNat u := by
    intro t
    rw [decide_eq_true_iff, ← UInt8.toNat_inj, huid]
  have hfront : r.tasks = r.tasks.filter q ++ r.tasks.filter (fun t => !q t) := by
    apply h.sorted.eq_filter_append
    intro a ha b hb hqa hqb
    exact hpreferred a (h.perm.mem_iff.mp ha) b (h.perm.mem_iff.mp hb) (of_decide_eq_true hqa)
      (of_decide_eq_false hqb)
  have hsame := filter_sorted_eq hcomp hs (by omega) hu h.perm h'.perm h.sorted h'.sorted
  have hlength : (r.tasks.filter q).length = r'.tasks.length := by
    simpa using congrArg List.length hsame
  -- what is logged about them is the log of the player alone
  obtain ⟨out₁, out₂, hcall₁, hcall₂, hearly⟩ := exists_call_append std tp (std.sort procComp procs)
    (r.tasks.filter q) (r.tasks.filter (fun t => !q t))
  rw [← hfront, hcall] at hcall₂
  cases hcall₂
  rw [call_congr_anonymous hsame, call_congr_heap hheap,
    sort_eq_of_byMips std std' hprocComp (.refl procs), hcall'] at hcall₁
  cases hcall₁
  rw [hlength] at hearly
  have hlt : UInt8.ofNat u < UInt8.ofNat slices.length := by
    rw [UInt8.lt_iff_toNat_lt, huid, Mmsim.toNat_userId (by omega)]
    exact hu
  obtain ⟨t, ht, hfinishing⟩ := h.times _ hlt
  obtain ⟨t', ht', hfinishing'⟩ := h'.times 0 (show (0 : UInt8) < 1 by decide)
  obtain ⟨x, hx⟩ := List.length_eq_one_iff.mp h'.length
  have hown : ∀ task ∈ r'.tasks, task.userid = 0 := by
    intro task htask
    have hmem := h'.perm.mem_iff.mp htask
    rw [Mmsim.tasksFrom_singleton] at hmem
    exact Mmsim.userid_of_mem_playerTasks hmem
  have hne : r'.tasks ≠ [] := by
    obtain ⟨task, htask, -⟩ := Mmsim.exists_mem_tasksFrom (u := 0) hslice hN Nat.one_pos
    exact List.ne_nil_of_mem (h'.perm.mem_iff.mpr htask)
  have htime : t = t' := by
    apply hfinishing.eq_of_early hfinishing' hne hearly
    · intro c hc
      exact (h.schedule.eq_completion hc).2
    · intro c hc
      exact (h'.schedule.eq_completion hc).2
    · intro k hk
      rw [← hq, apply_getElem_iff_of_front hfront hk, hlength]
    · exact hown
    · rw [← hlength]
      exact List.length_filter_le _ _
  rw [hx] at ht'
  cases ht'
  refine ⟨_, _, r, r', t, Mmsim.createTasks_unbounded problemSize hs,
    Mmsim.createTasks_unbounded problemSize hslice, hsim, hsim', by rwa [huid] at ht, ?_⟩
  rw [hx, htime]

theorem preferred_player_unaffected_five :
    ∃ tasks tasks' r r' t, Mmsim.createTasks .unbounded 5 [2, 7] = some tasks ∧
      Mmsim.createTasks .unbounded 5 [2] = some tasks' ∧
      simulate .reference .identity [⟨2⟩, ⟨1⟩] Processor.slowFirst tasks SimpleTask.smallFirst
        ⟨100, 1⟩ 2 true false = some r ∧
      simulate .reference .identity [⟨2⟩, ⟨1⟩] Processor.slowFirst tasks' SimpleTask.smallFirst
        ⟨100, 1⟩ 1 false false = some r' ∧
      r.times[0]? = some t ∧ r'.times = [t] :=
  preferred_player_unaffected .reference .reference (.refl _) .identity .identity [⟨2⟩, ⟨1⟩]
    Processor.slowFirst SimpleTask.smallFirst ⟨100, 1⟩ true false false 5 [2, 7] (by decide)
    (by decide) (by decide) (List.cons_ne_nil _ _) (by decide +kernel) (.inl rfl) (.inl rfl)
    (by decide +kernel) (by decide +kernel) 0 (by decide) (by decide +kernel)

/-! ## Smaller tiles -/

section SmallerTiles

variable {problemSize i j : ℕ} {u v : UInt8}

/-- When all tiles of one player are smaller than all tiles of another, so are their
    strips. -/
theorem lt_of_smaller_tiles (hN : 1 ≤ problemSize) (hi : 0 < i) (hj : 0 < j)
    (hsmaller : ∀ a ∈ Mmsim.playerTasks .unbounded problemSize i u,
      ∀ b ∈ Mmsim.playerTasks .unbounded problemSize j v, a.complexity < b.complexity) {h k : ℕ}
    (hh : h ∈ heights problemSize i) (hk : k ∈ heights problemSize j) : h < k := by
  have hlt := hsmaller _ ((Mmsim.mem_playerTasks hi).mpr ⟨h, hh, h, hh, rfl⟩) _
    ((Mmsim.mem_playerTasks hj).mpr ⟨k, hk, k, hk, rfl⟩)
  by_contra hge
  have hle : (k : ℚ) ≤ h := by exact_mod_cast Nat.not_lt.mp hge
  rw [Mmsim.complexity_tile, Mmsim.complexity_tile] at hlt
  have hoperations : (0 : ℚ) ≤ 2 * problemSize - 1 := by
    have hone : (1 : ℚ) ≤ problemSize := by exact_mod_cast hN
    linarith
  have hcomplexity : (k : ℚ) * k * (2 * problemSize - 1) ≤ h * h * (2 * problemSize - 1) := by
    gcongr
  exact absurd hlt (not_lt.mpr hcomplexity)

/-- So their tiles have fewer bits. -/
theorem bits_le_of_smaller_tiles (hN : 1 ≤ problemSize) (hi : 0 < i) (hj : 0 < j)
    (hsmaller : ∀ a ∈ Mmsim.playerTasks .unbounded problemSize i u,
      ∀ b ∈ Mmsim.playerTasks .unbounded problemSize j v, a.complexity < b.complexity)
    {a b : SimpleTask} (ha : a ∈ Mmsim.playerTasks .unbounded problemSize i u)
    (hb : b ∈ Mmsim.playerTasks .unbounded problemSize j v) :
    a.bitsToTransfer ≤ b.bitsToTransfer := by
  obtain ⟨h, hh, h', hh', rfl⟩ := (Mmsim.mem_playerTasks hi).mp ha
  obtain ⟨k, hk, k', hk', rfl⟩ := (Mmsim.mem_playerTasks hj).mp hb
  rw [Mmsim.bitsToTransfer_tile, Mmsim.bitsToTransfer_tile, Width.wrap, Width.wrap]
  exact Mmsim.tileBits_mono (lt_of_smaller_tiles hN hi hj hsmaller hh hk).le
    (lt_of_smaller_tiles hN hi hj hsmaller hh' hk').le

/-- What is known of the tasks with two user ids is known of the tasks made for the two
    players' slices. -/
theorem smaller_playerTasks {slices : List ℕ} {k l : ℕ} (hlen : slices.length ≤ 256)
    (hk : k < slices.length) (hl : l < slices.length)
    (hsmaller : ∀ a ∈ Mmsim.tasksFrom .unbounded problemSize slices 0,
      ∀ b ∈ Mmsim.tasksFrom .unbounded problemSize slices 0,
        a.userid.toNat = k → b.userid.toNat = l → a.complexity < b.complexity) :
    ∀ a ∈ Mmsim.playerTasks .unbounded problemSize slices[k] (UInt8.ofNat (0 + k)),
      ∀ b ∈ Mmsim.playerTasks .unbounded problemSize slices[l] (UInt8.ofNat (0 + l)),
        a.complexity < b.complexity := by
  intro a ha b hb
  apply hsmaller a (Mmsim.mem_tasksFrom.mpr ⟨k, hk, ha⟩) b (Mmsim.mem_tasksFrom.mpr ⟨l, hl, hb⟩)
  · rw [Mmsim.userid_of_mem_playerTasks ha, Mmsim.toNat_userId (by omega), Nat.zero_add]
  · rw [Mmsim.userid_of_mem_playerTasks hb, Mmsim.toNat_userId (by omega), Nat.zero_add]

/-- If one of two players has the smaller tasks, a task with more operations has at least
    as many bits, whoever it belongs to. -/
theorem bits_le_of_mem_pair (hN : 1 ≤ problemSize) (hs : ∀ s ∈ [i, j], 0 < s) {x y : ℕ}
    (hx : x < 2) (hy : y < 2) (hxy : x ≠ y)
    (hsmaller : ∀ a ∈ Mmsim.tasksFrom .unbounded problemSize [i, j] 0,
      ∀ b ∈ Mmsim.tasksFrom .unbounded problemSize [i, j] 0,
        a.userid.toNat = x → b.userid.toNat = y → a.complexity < b.complexity) :
    ∀ t ∈ Mmsim.tasksFrom .unbounded problemSize [i, j] 0,
      ∀ t' ∈ Mmsim.tasksFrom .unbounded problemSize [i, j] 0, t.complexity ≤ t'.complexity →
        t.bitsToTransfer ≤ t'.bitsToTransfer := by
  have hplayers := smaller_playerTasks (Nat.le_of_ble_eq_true rfl) hx hy hsmaller
  intro t ht t' ht' hle
  obtain ⟨k, hk, ht⟩ := Mmsim.mem_tasksFrom.mp ht
  obtain ⟨l, hl, ht'⟩ := Mmsim.mem_tasksFrom.mp ht'
  have hk2 : k < 2 := hk
  have hl2 : l < 2 := hl
  by_cases hkl : k = l
  · subst hkl
    exact Mmsim.bits_le_of_complexity_le (hs _ (List.getElem_mem hk)) hN ht ht' hle
  · by_cases hkx : k = x
    · obtain rfl : l = y := by omega
      subst hkx
      exact bits_le_of_smaller_tiles hN (hs _ (List.getElem_mem hk)) (hs _ (List.getElem_mem hl))
        hplayers ht ht'
    · -- the other way round the first task would have fewer operations
      obtain rfl : k = y := by omega
      obtain rfl : l = x := by omega
      exact absurd (hplayers t' ht' t ht) (not_lt.mpr hle)

end SmallerTiles

/-- On equal processors, with the smallest tasks first, a player all of whose tasks are
    smaller than the other's is done before any task of the other is, whichever of the
    two it is. -/
theorem smaller_tiles_done_first (std : StdAlgorithms) (g : Shuffle) (procs : List Processor)
    (mips : ℚ) (procComp : Comparator Processor) (tp : TaskProcessorWithTransfer) (shuffle : Bool)
    (problemSize i j : ℕ) (hN : 1 ≤ problemSize) (hi : 1 ≤ i) (hj : 1 ≤ j) (hprocs : procs ≠ [])
    (hequal : ∀ p ∈ procs, p.mips = mips) (hmips : 0 < mips) (hbandwidth : 0 < tp.bandwidth)
    (hsetup : 0 ≤ tp.connectionSetup) (u v : ℕ) (hu : u < 2) (hv : v < 2) (huv : u ≠ v)
    (hsmaller : ∀ a ∈ Mmsim.tasksFrom .unbounded problemSize [i, j] 0,
      ∀ b ∈ Mmsim.tasksFrom .unbounded problemSize [i, j] 0,
        a.userid.toNat = u → b.userid.toNat = v → a.complexity < b.complexity) :
    ∃ tasks r t t', Mmsim.createTasks .unbounded problemSize [i, j] = some tasks ∧
      simulate std g procs procComp tasks SimpleTask.smallFirst tp 2 shuffle true = some r ∧
      r.times.length = 2 ∧ r.times[u]? = some t ∧ r.times[v]? = some t' ∧ t ≤ t' ∧
      ∀ c ∈ r.processedTasks, userOf r.tasks c = some (UInt8.ofNat v) → t ≤ c.timeEnd := by
  have hs : ∀ s ∈ [i, j], 1 ≤ s :=
    List.forall_mem_cons.mpr ⟨hi, List.forall_mem_singleton.mpr hj⟩
  have hmips' : ∀ p ∈ procs, 0 < p.mips := fun p hp => by rwa [hequal p hp]
  have husers : ∀ t ∈ Mmsim.tasksFrom .unbounded problemSize [i, j] 0, t.userid < 2 :=
    Mmsim.userid_lt_of_mem_tasksFrom (Nat.le_of_ble_eq_true rfl)
  obtain ⟨r, out, w, hsim, -, hprocessed, h⟩ := exists_simulated std g procs procComp
    (Mmsim.tasksFrom .unbounded problemSize [i, j] 0) SimpleTask.smallFirst tp 2 shuffle true hprocs
    hmips' (fun t ht => Mmsim.complexity_nonneg_of_mem_tasksFrom ht) husers hbandwidth hsetup
  have hid : ∀ k < 2, (UInt8.ofNat k).toNat = k := fun k hk => Mmsim.toNat_userId (by omega)
  have hhint : ∀ k < 2, UInt8.ofNat k < 2 := by
    intro k hk
    rw [UInt8.lt_iff_toNat_lt, hid k hk]
    exact hk
  have hexists : ∀ k < 2, ∃ task ∈ r.tasks, task.userid = UInt8.ofNat k := by
    intro k hk
    obtain ⟨task, htask, huser⟩ := Mmsim.exists_mem_tasksFrom (u := 0) hs hN hk
    rw [Nat.zero_add] at huser
    exact ⟨task, h.perm.mem_iff.mpr htask, huser⟩
  obtain ⟨t, ht, hfinishing⟩ := h.times _ (hhint u hu)
  obtain ⟨t', ht', hfinishing'⟩ := h.times _ (hhint v hv)
  rw [hid u hu] at ht
  rw [hid v hv] at ht'
  have hequal' : ∀ p ∈ std.sort procComp procs, p.mips = mips :=
    fun p hp => hequal p ((std.sort_perm procComp procs).mem_iff.mp hp)
  have hjob : ∀ k < r.tasks.length, 0 ≤ jobTime tp mips r.tasks k :=
    fun k hk => jobTime_nonneg hmips (fun t ht =>
      Mmsim.complexity_nonneg_of_mem_tasksFrom (h.perm.mem_iff.mp ht)) hbandwidth hsetup hk
  have hmono := jobTime_mono hmips hbandwidth h.sorted (fun t ht t' ht' =>
    bits_le_of_mem_pair hN hs hu hv huv hsmaller t (h.perm.mem_iff.mp ht) t'
      (h.perm.mem_iff.mp ht'))
  -- the last task of the player stands in front of all tasks of the other
  have hbefore : ∀ c ∈ out, userOf r.tasks c = some (UInt8.ofNat v) → t ≤ c.timeEnd := by
    intro c hc huser
    obtain ⟨c₀, hc₀, huser₀, rfl⟩ := (hfinishing.1 (hexists u hu)).1
    obtain ⟨a, ha, hau⟩ := Option.map_eq_some_iff.mp huser₀
    obtain ⟨b, hb, hbv⟩ := Option.map_eq_some_iff.mp huser
    have hless : a.complexity < b.complexity :=
      hsmaller a (h.perm.mem_iff.mp (List.mem_of_getElem? ha)) b
        (h.perm.mem_iff.mp (List.mem_of_getElem? hb)) (by rw [hau, hid u hu])
        (by rw [hbv, hid v hv])
    have hfront : SimpleTask.smallFirst a b = true := decide_eq_true hless
    exact h.schedule.timeEnd_mono hequal' hjob hmono hc₀ hc (h.sorted.index_lt ha hb hfront).le
  refine ⟨_, r, t, t', Mmsim.createTasks_unbounded problemSize hs, hsim, h.length, ht, ht', ?_, ?_⟩
  · obtain ⟨c, hc, huser, rfl⟩ := (hfinishing'.1 (hexists v hv)).1
    exact hbefore c hc huser
  · rw [hprocessed]
    exact hbefore

theorem smaller_tiles_done_first_five :
    ∃ tasks r t t', Mmsim.createTasks .unbounded 5 [5, 2] = some tasks ∧
      simulate .reference .identity [⟨2⟩, ⟨2⟩] Processor.slowFirst tasks SimpleTask.smallFirst
        ⟨100, 1⟩ 2 true true = some r ∧
      r.times.length = 2 ∧ r.times[1]? = some t ∧ r.times[0]? = some t' ∧ t ≤ t' := by
  obtain ⟨tasks, r, t, t', htasks, hr, hlen, ht, ht', hle, -⟩ := smaller_tiles_done_first .reference
    .identity [⟨2⟩, ⟨2⟩] 2 Processor.slowFirst ⟨100, 1⟩ true 5 5 2 (by decide) (by decide)
    (by decide) (List.cons_ne_nil _ _) (by decide +kernel) (by decide +kernel) (by decide +kernel)
    (by decide +kernel) 1 0 (by decide) (by decide) (by decide) (by decide +kernel)
  exact ⟨tasks, r, t, t', htasks, hr, hlen, ht, ht', hle⟩

end Smpp
