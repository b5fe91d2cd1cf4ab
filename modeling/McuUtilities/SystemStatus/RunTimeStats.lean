import Mathlib.Data.List.Nodup
import McuUtilities.Lib.Bytes

/-!
# Interval run-time statistics

`vTaskGetIntervalRunTimeStats` takes two snapshots of the tasks and prints what each task of the second
one ran in between. The counter a task had in the first snapshot is looked up by the task's name, in as
many entries of the first snapshot as the second one has; where the search fails, the entry for the
counter is read as it was left on the stack.
-/

namespace McuUtilities.SystemStatus

/-! ## The scheduler -/

/-- `xTaskNumber` tells tasks apart. The name is the string at `pcTaskName` when the rows are made; the
first snapshot may point to the name of a task that was deleted since. -/
structure TaskStatus where
  xTaskNumber : Nat
  pcTaskName : List UInt8
  ulRunTimeCounter : UInt32
  deriving DecidableEq, Repr

/-- The live tasks at one time, in any order. -/
structure Snapshot where
  tasks : List TaskStatus
  ulTotalRunTime : UInt32
  nodup : (tasks.map (·.xTaskNumber)).Nodup

/-- What one call of the statistics finds: the three answers of `uxTaskGetNumberOfTasks`, those of
`pvPortMalloc`, the snapshots, and what was on the stack before. -/
structure Rtos where
  uxArraySize : Nat
  firstCapacity : Nat
  secondCapacity : Nat
  firstAllocated : Bool
  secondAllocated : Bool
  first : Snapshot
  second : Snapshot
  strayFirstCalTime : UInt32
  strayTotalTime : UInt32
  strayCounter : Nat → UInt32

/-- The entries written, and the total time afterwards. -/
def uxTaskGetSystemState (snapshot : Snapshot) (uxArraySize : Nat) (ulTotalRunTime : UInt32) :
    List TaskStatus × UInt32 :=
  if snapshot.tasks.length ≤ uxArraySize then (snapshot.tasks, snapshot.ulTotalRunTime)
  else ([], ulTotalRunTime)

/-! ## Statistics -/

/-- `ulFirstRunTimeCounter` for one task; nothing where it is not initialised. -/
def firstRunTimeCounter (pxFirstTaskStatusArray : List TaskStatus) (uxArraySize : Nat)
    (task : TaskStatus) : Option UInt32 :=
  ((pxFirstTaskStatusArray.take uxArraySize).find? fun first =>
    strcmpEq first.pcTaskName task.pcTaskName).map (·.ulRunTimeCounter)

structure Row where
  task : TaskStatus
  ulFirstRunTimeCounter : Option UInt32
  time : UInt32
  ulStatsAsPercentage : UInt32
  deriving DecidableEq, Repr

def row (pxFirstTaskStatusArray : List TaskStatus) (uxArraySize : Nat) (ulTotalTime : UInt32)
    (strayCounter : Nat → UInt32) (x : Nat) (task : TaskStatus) : Row :=
  let first := firstRunTimeCounter pxFirstTaskStatusArray uxArraySize task
  let time := task.ulRunTimeCounter - first.getD (strayCounter x)
  ⟨task, first, time, time / ulTotalTime⟩

/-- The name, filled up with spaces. -/
def prvWriteNameToBuffer (configMaxTaskNameLen : Nat) (pcTaskName : List UInt8) : List UInt8 :=
  cstr pcTaskName ++ List.replicate (configMaxTaskNameLen - 1 - (cstr pcTaskName).length) 0x20

/-- `%u` -/
def decimalText (n : UInt32) : List UInt8 := (Nat.toDigits 10 n.toNat).map fun c => UInt8.ofNat c.toNat

/-- The name, a tab, the time, two tabs, the percentage or "<1", "%\r\n". -/
def Row.text (configMaxTaskNameLen : Nat) (r : Row) : List UInt8 :=
  prvWriteNameToBuffer configMaxTaskNameLen r.task.pcTaskName ++ 0x09 :: decimalText r.time ++
    [0x09, 0x09] ++
    (if 0 < r.ulStatsAsPercentage then decimalText r.ulStatsAsPercentage else [0x3c, 0x31]) ++
    [0x25, 0x0d, 0x0a]

/-- What a call leaves: the buffer as it was, the rows and their text in it, or entries behind the end of
an array. -/
inductive Outcome
  | untouched
  | written (pcWriteBuffer : List UInt8) (rows : List Row)
  | overrun
  deriving DecidableEq, Repr

/-- The second half of the function: the second snapshot, the time in between, the rows. -/
def writeRows (configMaxTaskNameLen : Nat) (rtos : Rtos) (first : List TaskStatus)
    (ulFirstCalTime : UInt32) : Outcome :=
  let second := uxTaskGetSystemState rtos.second first.length rtos.strayTotalTime
  if rtos.secondCapacity < second.1.length then .overrun
  else
    let ulTotalTime := (second.2 - ulFirstCalTime) / 100
    if 0 < ulTotalTime then
      let rows := second.1.mapIdx (row first second.1.length ulTotalTime rtos.strayCounter)
      .written (rows.flatMap (Row.text configMaxTaskNameLen)) rows
    else .written [] []

def vTaskGetIntervalRunTimeStats (configMaxTaskNameLen : Nat) (rtos : Rtos) : Outcome :=
  if rtos.secondAllocated && rtos.firstAllocated then
    let first := uxTaskGetSystemState rtos.first rtos.uxArraySize rtos.strayFirstCalTime
    if rtos.firstCapacity < first.1.length then .overrun
    else writeRows configMaxTaskNameLen rtos first.1 first.2
  else .untouched

/-! ## What the statistics are for -/

/-- The counter of a task in a snapshot, 0 if it did not exist. -/
def Snapshot.counterOf (snapshot : Snapshot) (task : TaskStatus) : UInt32 :=
  ((snapshot.tasks.find? fun t => t.xTaskNumber == task.xTaskNumber).map (·.ulRunTimeCounter)).getD 0

/-- A row about a task of the second snapshot, with what it ran since the first. -/
structure Row.Right (first second : Snapshot) (r : Row) : Prop where
  task : r.task ∈ second.tasks
  initialised : r.ulFirstRunTimeCounter ≠ none
  time : r.time = r.task.ulRunTimeCounter - first.counterOf r.task

/-- The rows are printed, and every one of them is right. -/
def Outcome.Attributed (configMaxTaskNameLen : Nat) (first second : Snapshot) : Outcome → Prop
  | .untouched => True
  | .written pcWriteBuffer rows =>
    pcWriteBuffer = rows.flatMap (Row.text configMaxTaskNameLen) ∧
      ∀ r ∈ rows, r.Right first second
  | .overrun => False

/-- The first namesake of a task that the search meets is there, with the counter that the task had. -/
def Traced (first second : Snapshot) (task : TaskStatus) : Prop :=
  ∃ namesake, ((first.tasks.take second.tasks.length).find? fun t =>
      strcmpEq t.pcTaskName task.pcTaskName) = some namesake ∧
    namesake.ulRunTimeCounter = first.counterOf task

/-- The snapshots that are taken fit into their arrays, and if rows are printed then every task is
traced. -/
def Rtos.Traces (rtos : Rtos) : Prop :=
  rtos.first.tasks.length ≤ rtos.uxArraySize →
    rtos.first.tasks.length ≤ rtos.firstCapacity ∧
    (rtos.second.tasks.length ≤ rtos.first.tasks.length →
      rtos.second.tasks.length ≤ rtos.secondCapacity ∧
      (100 ≤ rtos.second.ulTotalRunTime - rtos.first.ulTotalRunTime →
        ∀ task ∈ rtos.second.tasks, Traced rtos.first rtos.second task))

variable {snapshot first second : Snapshot} {task : TaskStatus} {n x : Nat} {t total : UInt32}
  {stray : Nat → UInt32}

/-! ## Rows -/

theorem uxTaskGetSystemState_of_le (h : snapshot.tasks.length ≤ n) :
    uxTaskGetSystemState snapshot n t = (snapshot.tasks, snapshot.ulTotalRunTime) := if_pos h

/-- An array of no entries stays empty. -/
theorem uxTaskGetSystemState_zero : (uxTaskGetSystemState snapshot 0 t).1 = [] := by
  by_cases h : snapshot.tasks.length ≤ 0
  · rw [uxTaskGetSystemState_of_le h]
    exact List.eq_nil_of_length_eq_zero (Nat.le_zero.mp h)
  · rw [uxTaskGetSystemState, if_neg h]

theorem right_row_iff (htask : task ∈ second.tasks) :
    (row first.tasks second.tasks.length total stray x task).Right first second ↔
      Traced first second task := by
  rw [row, firstRunTimeCounter, Traced]
  cases (first.tasks.take second.tasks.length).find? fun t => strcmpEq t.pcTaskName task.pcTaskName with
  | none => exact iff_of_false (fun h => h.initialised rfl) (by simp)
  | some namesake =>
    constructor
    · intro h
      exact ⟨namesake, rfl, (UInt32.sub_right_inj _).mp h.time⟩
    · rintro ⟨_, heq, hcounter⟩
      cases heq
      exact ⟨htask, by simp, (UInt32.sub_right_inj _).mpr hcounter⟩

theorem forall_mem_rows_iff :
    (∀ r ∈ second.tasks.mapIdx (row first.tasks second.tasks.length total stray),
      r.Right first second) ↔ ∀ task ∈ second.tasks, Traced first second task := by
  constructor
  · intro h task htask
    obtain ⟨x, hx, rfl⟩ := List.getElem_of_mem htask
    exact (right_row_iff htask).mp (h _ (List.mem_mapIdx.mpr ⟨x, hx, rfl⟩))
  · intro h r hr
    obtain ⟨x, hx, rfl⟩ := List.mem_mapIdx.mp hr
    have htask := List.getElem_mem hx
    exact (right_row_iff htask).mpr (h _ htask)

theorem div_hundred_pos_iff : 0 < t / 100 ↔ 100 ≤ t := by
  rw [UInt32.lt_iff_toNat_lt, UInt32.le_iff_toNat_le, UInt32.toNat_div]
  exact Nat.div_pos_iff.trans (by simp)

/-! ## Tasks that stay -/

theorem counterOf_of_mem {t : TaskStatus} (ht : t ∈ snapshot.tasks)
    (hn : t.xTaskNumber = task.xTaskNumber) : snapshot.counterOf task = t.ulRunTimeCounter := by
  obtain ⟨u, hu⟩ : ∃ u, (snapshot.tasks.find? fun u => u.xTaskNumber == task.xTaskNumber) = some u :=
    Option.isSome_iff_exists.mp (List.find?_isSome.mpr ⟨t, ht, beq_iff_eq.mpr hn⟩)
  have hnumber : u.xTaskNumber = t.xTaskNumber := by
    have hfound := List.find?_some hu
    rw [hn]
    exact beq_iff_eq.mp hfound
  have heq : u = t := List.inj_on_of_nodup_map snapshot.nodup (List.mem_of_find?_eq_some hu) ht hnumber
  rw [Snapshot.counterOf, hu, heq]
  rfl

/-- Between two snapshots of the same tasks, each under a name of its own, every task is traced, in
whatever orders the snapshots come. -/
theorem traced_of_same_tasks (hlen : second.tasks.length = first.tasks.length)
    (hnames : ∀ s ∈ first.tasks, ∀ t ∈ first.tasks, strcmpEq s.pcTaskName t.pcTaskName = true → s = t)
    (hsame : ∀ task ∈ second.tasks, ∃ t ∈ first.tasks,
      t.xTaskNumber = task.xTaskNumber ∧ t.pcTaskName = task.pcTaskName) :
    ∀ task ∈ second.tasks, Traced first second task := by
  intro task htask
  obtain ⟨t, ht, hnumber, hname⟩ := hsame task htask
  rw [Traced, hlen, List.take_length]
  obtain ⟨u, hu⟩ : ∃ u, (first.tasks.find? fun u => strcmpEq u.pcTaskName task.pcTaskName) = some u :=
    Option.isSome_iff_exists.mp
      (List.find?_isSome.mpr ⟨t, ht, strcmpEq_iff.mpr (congrArg cstr hname)⟩)
  have hcmp : strcmpEq u.pcTaskName t.pcTaskName = true := by
    have hfound := List.find?_some hu
    rw [hname]
    exact hfound
  have heq : u = t := hnames u (List.mem_of_find?_eq_some hu) t ht hcmp
  exact ⟨u, hu, heq ▸ (counterOf_of_mem ht hnumber).symm⟩

/-! ## The table -/

section table
variable {configMaxTaskNameLen : Nat} {rtos : Rtos}

theorem attributed_nil : (Outcome.written [] []).Attributed configMaxTaskNameLen first second :=
  ⟨rfl, fun _ h => absurd h List.not_mem_nil⟩

/-- After a first snapshot that was not taken there are no rows, since the second one is not taken
either. -/
theorem attributed_writeRows_nil :
    (writeRows configMaxTaskNameLen rtos [] t).Attributed configMaxTaskNameLen first second := by
  have hnone : (uxTaskGetSystemState rtos.second 0 rtos.strayTotalTime).1 = [] :=
    uxTaskGetSystemState_zero
  simp only [writeRows, List.length_nil, hnone, List.mapIdx_nil]
  rw [if_neg (Nat.not_lt_zero _)]
  split
  · exact attributed_nil
  · exact attributed_nil

theorem attributed_writeRows_iff :
    (writeRows configMaxTaskNameLen rtos rtos.first.tasks rtos.first.ulTotalRunTime).Attributed
        configMaxTaskNameLen rtos.first rtos.second ↔
      (rtos.second.tasks.length ≤ rtos.first.tasks.length →
        rtos.second.tasks.length ≤ rtos.secondCapacity ∧
        (100 ≤ rtos.second.ulTotalRunTime - rtos.first.ulTotalRunTime →
          ∀ task ∈ rtos.second.tasks, Traced rtos.first rtos.second task)) := by
  by_cases hsecond : rtos.second.tasks.length ≤ rtos.first.tasks.length
  · simp only [writeRows, uxTaskGetSystemState_of_le hsecond]
    rw [forall_prop_of_true hsecond]
    by_cases hfits : rtos.second.tasks.length ≤ rtos.secondCapacity
    · rw [if_neg (Nat.not_lt.mpr hfits), and_iff_right hfits]
      by_cases ht : 100 ≤ rtos.second.ulTotalRunTime - rtos.first.ulTotalRunTime
      · rw [if_pos (div_hundred_pos_iff.mpr ht), forall_prop_of_true ht, ← forall_mem_rows_iff]
        exact and_iff_right rfl
      · rw [if_neg fun h => ht (div_hundred_pos_iff.mp h)]
        exact iff_of_true attributed_nil fun h => absurd h ht
    · rw [if_pos (Nat.not_le.mp hfits)]
      exact iff_of_false id fun h => hfits h.1
  · refine iff_of_true ?_ fun h => absurd h hsecond
    simp only [writeRows, uxTaskGetSystemState, if_neg hsecond, List.length_nil, List.mapIdx_nil]
    rw [if_neg (Nat.not_lt_zero _)]
    split
    · exact attributed_nil
    · exact attributed_nil

end table

/-- Every row that is printed attributes its task's time rightly, and from a baseline, if and only if
the snapshots taken fit into their arrays and, in case rows are printed, every task is traced. -/
theorem attributed_iff (configMaxTaskNameLen : Nat) (rtos : Rtos) :
    (vTaskGetIntervalRunTimeStats configMaxTaskNameLen rtos).Attributed configMaxTaskNameLen
        rtos.first rtos.second ↔
      ((rtos.secondAllocated && rtos.firstAllocated) = true → rtos.Traces) := by
  rw [Rtos.Traces]
  by_cases halloc : (rtos.secondAllocated && rtos.firstAllocated) = true
  · simp only [vTaskGetIntervalRunTimeStats, if_pos halloc]
    rw [forall_prop_of_true halloc]
    by_cases hfirst : rtos.first.tasks.length ≤ rtos.uxArraySize
    · rw [uxTaskGetSystemState_of_le hfirst, forall_prop_of_true hfirst]
      by_cases hfits : rtos.first.tasks.length ≤ rtos.firstCapacity
      · rw [if_neg (Nat.not_lt.mpr hfits), and_iff_right hfits]
        exact attributed_writeRows_iff
      · rw [if_pos (Nat.not_le.mp hfits)]
        exact iff_of_false id fun h => hfits h.1
    · refine iff_of_true ?_ fun h => absurd h hfirst
      simp only [uxTaskGetSystemState, if_neg hfirst, List.length_nil]
      rw [if_neg (Nat.not_lt_zero _)]
      exact attributed_writeRows_nil
  · rw [vTaskGetIntervalRunTimeStats, if_neg halloc]
    exact iff_of_true trivial fun h => absurd h halloc

/-- The tasks "a", "b" and "c", of which "a" is deleted between the snapshots. -/
def deletedBetween : Rtos where
  uxArraySize := 3
  firstCapacity := 3
  secondCapacity := 3
  firstAllocated := true
  secondAllocated := true
  first := ⟨[⟨1, [0x61], 10⟩, ⟨2, [0x62], 20⟩, ⟨3, [0x63], 30⟩], 1000, by decide⟩
  second := ⟨[⟨2, [0x62], 120⟩, ⟨3, [0x63], 430⟩], 1500, by decide⟩
  strayFirstCalTime := 0
  strayTotalTime := 0
  strayCounter := fun _ => 0

/-- The search for "c" ends before its entry, so what "c" ran is counted from what was on the stack. -/
theorem not_attributed_deletedBetween :
    ¬ (vTaskGetIntervalRunTimeStats 16 deletedBetween).Attributed 16 deletedBetween.first
      deletedBetween.second := by
  have hrow : (⟨⟨3, [0x63], 430⟩, none, 430, 86⟩ : Row) ∈
      deletedBetween.second.tasks.mapIdx (row deletedBetween.first.tasks 2 5 fun _ => 0) := by decide
  intro h
  exact (h.2 _ hrow).initialised rfl

end McuUtilities.SystemStatus
