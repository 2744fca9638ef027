import SnsxOS.Framework.Bytes
import SnsxOS.Framework.Transition
import Mathlib.Algebra.BigOperators.Group.Finset.Basic
import Mathlib.Data.Fintype.Basic

/-!
# The task table

`task_run_program` enters a program into a free slot of `g_tasks`, runs it to its end and returns to
the task that was running before. The timer interrupt charges its ticks to the current task and
lands between any two statements.
-/

namespace SnsxOS.X86

open SnsxOS.Framework

def maxTasks : Nat := 16

def taskNameMax : Nat := 32

def maxProgramSize : Nat := 64 * 1024

inductive TaskState where
  | ready
  | running
  | zombie
  deriving DecidableEq

/-- `task_t` -/
structure Task where
  pid : Int
  name : Buffer taskNameMax
  state : TaskState
  runtimeTicks : UInt32
  kernelTask : Bool
  deriving DecidableEq

/-- `g_tasks`, `g_task_count` and `g_current_task`. -/
structure TaskTable where
  tasks : Fin 16 → Task
  count : Nat
  current : Fin 16

namespace TaskTable

/-- Assign to fields of one task. -/
def modify (t : TaskTable) (slot : Fin 16) (f : Task → Task) : TaskTable :=
  { t with tasks := Function.update t.tasks slot (f (t.tasks slot)) }

@[simp] theorem modify_count (t : TaskTable) (slot : Fin 16) (f : Task → Task) :
    (t.modify slot f).count = t.count := rfl

@[simp] theorem modify_current (t : TaskTable) (slot : Fin 16) (f : Task → Task) :
    (t.modify slot f).current = t.current := rfl

@[simp] theorem modify_tasks_self (t : TaskTable) (slot : Fin 16) (f : Task → Task) :
    (t.modify slot f).tasks slot = f (t.tasks slot) := Function.update_self ..

theorem modify_tasks_of_ne (t : TaskTable) {slot i : Fin 16} (f : Task → Task) (h : i ≠ slot) :
    (t.modify slot f).tasks i = t.tasks i := Function.update_of_ne h ..

/-- A field that the assignment leaves alone. -/
theorem modify_field {α : Type*} (field : Task → α) (t : TaskTable) (slot : Fin 16)
    {f : Task → Task} (h : ∀ task, field (f task) = field task) (i : Fin 16) :
    field ((t.modify slot f).tasks i) = field (t.tasks i) := by
  by_cases hi : i = slot
  · subst i
    rw [modify_tasks_self, h]
  · rw [modify_tasks_of_ne t f hi]

/-- The runtime of all tasks together. -/
def totalTicks (t : TaskTable) : Nat :=
  ∑ i : Fin 16 with i.val < t.count, (t.tasks i).runtimeTicks.toNat

end TaskTable

/-- `strncpy(task->name, name, TASK_NAME_MAX - 1)` for a string without its terminator. -/
def strncpyName (buffer : Buffer taskNameMax) (name : Bytes) : Buffer taskNameMax :=
  buffer.write 0 (name.take (taskNameMax - 1) ++
    List.replicate (taskNameMax - 1 - name.length) 0)

/-- The statements of `add_task` after its test. -/
inductive AddStatement where
  | pid
  | name
  | terminator
  | state
  | ticks
  | kernelTask
  | count
  deriving DecidableEq

def addStatement (name : Bytes) (kernelTask : Bool) (state : TaskState) (slot : Fin 16)
    (t : TaskTable) : AddStatement → TaskTable
  | .pid => t.modify slot fun task => { task with pid := (t.count : Int) + 1 }
  | .name => t.modify slot fun task => { task with name := strncpyName task.name name }
  | .terminator =>
      t.modify slot fun task => { task with name := task.name.write (taskNameMax - 1) [0] }
  | .state => t.modify slot fun task => { task with state := state }
  | .ticks => t.modify slot fun task => { task with runtimeTicks := 0 }
  | .kernelTask => t.modify slot fun task => { task with kernelTask := kernelTask }
  | .count => { t with count := t.count + 1 }

/-- `add_task` -/
def addTask (t : TaskTable) (name : Bytes) (kernelTask : Bool) (state : TaskState) : TaskTable :=
  if h : t.count < maxTasks then
    [.pid, .name, .terminator, .state, .ticks, .kernelTask, .count].foldl
      (addStatement name kernelTask state ⟨t.count, h⟩) t
  else t

/-- `task_init` -/
def taskInit (t : TaskTable) : TaskTable :=
  addTask { t with count := 0, current := 0 } (ascii "shell") true .running

/-- `task_tick` -/
def taskTick (t : TaskTable) : TaskTable :=
  if t.current.val < t.count then
    t.modify t.current fun task => { task with runtimeTicks := task.runtimeTicks + 1 }
  else t

/-- The next statement of `task_run_program` after its test and its local variables. -/
inductive RunStatement where
  | add (statement : AddStatement)
  | clear
  | load
  | parentReady
  | slotRunning
  | enter
  /-- the program runs inside `task_invoke_program` -/
  | body
  | zombie
  | leave
  | parentRunning
  | result
  deriving DecidableEq

/-- The statement that follows; none follows the return of the pid. -/
def RunStatement.succ : RunStatement → Option RunStatement
  | .add .pid => some (.add .name)
  | .add .name => some (.add .terminator)
  | .add .terminator => some (.add .state)
  | .add .state => some (.add .ticks)
  | .add .ticks => some (.add .kernelTask)
  | .add .kernelTask => some (.add .count)
  | .add .count => some .clear
  | .clear => some .load
  | .load => some .parentReady
  | .parentReady => some .slotRunning
  | .slotRunning => some .enter
  | .enter => some .body
  | .body => some .zombie
  | .zombie => some .leave
  | .leave => some .parentRunning
  | .parentRunning => some .result
  | .result => none

/-- A call of `task_run_program` in progress, with its arguments and local variables. -/
structure RunFrame where
  name : Bytes
  image : Bytes
  parent : Fin 16
  slot : Fin 16
  next : RunStatement

/-- What the next statement of a call does to the table. -/
def runStatement (t : TaskTable) (frame : RunFrame) : TaskTable :=
  match frame.next with
  | .add statement => addStatement frame.name false .ready frame.slot t statement
  | .parentReady => t.modify frame.parent fun task => { task with state := .ready }
  | .slotRunning => t.modify frame.slot fun task => { task with state := .running }
  | .enter => { t with current := frame.slot }
  | .zombie => t.modify frame.slot fun task => { task with state := .zombie }
  | .leave => { t with current := frame.parent }
  | .parentRunning => t.modify frame.parent fun task => { task with state := .running }
  | .clear | .load | .body | .result => t

/-- What it does to the memory at `PROGRAM_LOAD_ADDR`. -/
def loadStatement (program : Buffer maxProgramSize) (frame : RunFrame) : Buffer maxProgramSize :=
  match frame.next with
  | .clear => Buffer.zero _
  | .load => program.write 0 frame.image
  | _ => program

/-- The kernel while programs are run: besides the table and the program memory there is the rest of
the machine. `results` lists what the calls returned, `started` and `finished` the slots whose
program was entered and has returned, and `ticks` counts the timer interrupts. -/
structure TaskSystem (World : Type*) where
  table : TaskTable
  program : Buffer maxProgramSize
  world : World
  frame : Option RunFrame
  results : List Int
  started : List (Fin 16)
  finished : List (Fin 16)
  ticks : Nat

variable {World : Type*}

def TaskSystem.boot (t : TaskTable) (program : Buffer maxProgramSize) (world : World) :
    TaskSystem World where
  table := taskInit t
  program := program
  world := world
  frame := none
  results := []
  started := []
  finished := []
  ticks := 0

inductive TaskOp (World : Type*) where
  /-- a timer interrupt -/
  | tick
  /-- a call of `task_run_program`, up to its local variables -/
  | call (name image : Bytes)
  /-- the next statement of the call in progress; in the program, its return -/
  | next
  /-- the program does something to its memory and to the rest of the machine -/
  | effect (f : Buffer maxProgramSize × World → Buffer maxProgramSize × World)

def taskCall (s : TaskSystem World) (name image : Bytes) : TaskSystem World :=
  if h : s.table.count < maxTasks ∧ image.length ≠ 0 ∧ image.length ≤ maxProgramSize then
    { s with frame := some ⟨name, image, s.table.current, ⟨s.table.count, h.1⟩, .add .pid⟩ }
  else { s with results := s.results ++ [-1] }

def taskNext (s : TaskSystem World) (frame : RunFrame) : TaskSystem World :=
  { s with
    table := runStatement s.table frame
    program := loadStatement s.program frame
    frame := frame.next.succ.map fun next => { frame with next := next }
    results :=
      if frame.next = .result then s.results ++ [(s.table.tasks frame.slot).pid] else s.results
    started := if frame.next = .enter then s.started ++ [frame.slot] else s.started
    finished := if frame.next = .body then s.finished ++ [frame.slot] else s.finished }

def taskStep (s : TaskSystem World) : TaskOp World → TaskSystem World
  | .tick => { s with table := taskTick s.table, ticks := s.ticks + 1 }
  | .call name image => if s.frame.isNone then taskCall s name image else s
  | .next => (s.frame.map (taskNext s)).getD s
  | .effect f =>
      if s.frame.any fun frame => frame.next = .body then
        { s with program := (f (s.program, s.world)).1, world := (f (s.program, s.world)).2 }
      else s

/-! ## The sum of the ticks -/

theorem totalTicks_modify (t : TaskTable) (slot : Fin 16) {f : Task → Task}
    (h : ∀ task, (f task).runtimeTicks = task.runtimeTicks) :
    (t.modify slot f).totalTicks = t.totalTicks := by
  apply Finset.sum_congr rfl
  intro i _
  rw [t.modify_field (fun task => task.runtimeTicks) slot h]

/-- A slot that is not in use does not count. -/
theorem totalTicks_modify_unused (t : TaskTable) {slot : Fin 16} (f : Task → Task)
    (h : t.count ≤ slot.val) : (t.modify slot f).totalTicks = t.totalTicks := by
  apply Finset.sum_congr rfl
  intro i hi
  have hcount : i.val < t.count := (Finset.mem_filter.mp hi).2
  have hne : i ≠ slot := by
    rintro rfl
    omega
  rw [t.modify_tasks_of_ne f hne]

theorem totalTicks_count_succ {t : TaskTable} {slot : Fin 16} (h : slot.val = t.count) :
    TaskTable.totalTicks { t with count := t.count + 1 } =
      (t.tasks slot).runtimeTicks.toNat + t.totalTicks := by
  have hinsert : (Finset.univ.filter fun i : Fin 16 => i.val < t.count + 1) =
      insert slot (Finset.univ.filter fun i : Fin 16 => i.val < t.count) := by
    ext i
    simp only [Finset.mem_filter, Finset.mem_univ, true_and, Finset.mem_insert, Fin.ext_iff]
    omega
  simp only [TaskTable.totalTicks, hinsert]
  apply Finset.sum_insert
  simp [h]

/-- A tick adds one to the runtime of the task that is charged, wrapping at 32 bits. -/
theorem totalTicks_taskTick {t : TaskTable} (h : t.current.val < t.count) :
    (taskTick t).totalTicks ≡ t.totalTicks + 1 [MOD 2 ^ 32] := by
  have hmem : t.current ∈ Finset.univ.filter fun i : Fin 16 => i.val < t.count := by simp [h]
  have hrest : ∑ i ∈ (Finset.univ.filter fun i : Fin 16 => i.val < t.count).erase t.current,
      ((taskTick t).tasks i).runtimeTicks.toNat =
      ∑ i ∈ (Finset.univ.filter fun i : Fin 16 => i.val < t.count).erase t.current,
        (t.tasks i).runtimeTicks.toNat := by
    apply Finset.sum_congr rfl
    intro i hi
    rw [taskTick, if_pos h, t.modify_tasks_of_ne _ (Finset.ne_of_mem_erase hi)]
  have hcount : (taskTick t).count = t.count := by simp [taskTick, h]
  have hcharged : ((taskTick t).tasks t.current).runtimeTicks.toNat ≡
      (t.tasks t.current).runtimeTicks.toNat + 1 [MOD 2 ^ 32] := by
    simp [taskTick, h, Nat.ModEq, UInt32.toNat_add]
  rw [TaskTable.totalTicks, TaskTable.totalTicks, hcount, ← Finset.add_sum_erase _ _ hmem,
    ← Finset.add_sum_erase _ _ hmem, hrest, Nat.add_right_comm]
  exact hcharged.add_right _

/-! ## The table between two statements -/

/-- No call is in progress: the shell is running, everything else has ended. -/
structure Idle (t : TaskTable) : Prop where
  shell : 0 < t.count
  current : t.current = 0
  pid : ∀ i : Fin 16, i.val < t.count → (t.tasks i).pid = i.val + 1
  state : ∀ i : Fin 16, i.val < t.count →
    (t.tasks i).state = if i = 0 then .running else .zombie

/-- The slot of the new program has been added to the count. -/
def RunStatement.counted : RunStatement → Bool
  | .add _ => false
  | _ => true

/-- The state of the shell before a statement. -/
def RunStatement.parentState : RunStatement → TaskState
  | .slotRunning | .enter | .body | .zombie | .leave | .parentRunning => .ready
  | _ => .running

/-- The state of the new task before a statement. -/
def RunStatement.slotState : RunStatement → TaskState
  | .enter | .body | .zombie => .running
  | .leave | .parentRunning | .result => .zombie
  | _ => .ready

/-- The new task is the current one before a statement. -/
def RunStatement.inside : RunStatement → Bool
  | .body | .zombie | .leave => true
  | _ => false

/-- The fields of the new task that have been assigned before a statement of `add_task`. -/
def RunStatement.Assigned (task : Task) (slot : Fin 16) : RunStatement → Prop
  | .add .pid => True
  | .add .name | .add .terminator | .add .state => task.pid = slot.val + 1
  | .add .ticks => task.pid = slot.val + 1 ∧ task.state = .ready
  | .add .kernelTask | .add .count =>
      task.pid = slot.val + 1 ∧ task.state = .ready ∧ task.runtimeTicks = 0
  | _ => True

/-- A call is in progress. -/
structure Busy (t : TaskTable) (frame : RunFrame) : Prop where
  parent : frame.parent = 0
  slot : frame.slot ≠ 0
  count : t.count = if frame.next.counted then frame.slot.val + 1 else frame.slot.val
  current : t.current = if frame.next.inside then frame.slot else 0
  pid : ∀ i : Fin 16, i.val < t.count → (t.tasks i).pid = i.val + 1
  state : ∀ i : Fin 16, i.val < t.count → (t.tasks i).state =
    if i = 0 then frame.next.parentState else if i = frame.slot then frame.next.slotState
    else .zombie
  assigned : frame.next.Assigned (t.tasks frame.slot) frame.slot

theorem taskTick_field {α : Type*} (field : Task → α) (t : TaskTable)
    (h : ∀ task ticks, field { task with runtimeTicks := ticks } = field task) (i : Fin 16) :
    field ((taskTick t).tasks i) = field (t.tasks i) := by
  unfold taskTick
  split
  · exact t.modify_field field _ (fun task => h task _) i
  · rfl

theorem taskTick_count (t : TaskTable) : (taskTick t).count = t.count := by
  unfold taskTick
  split <;> rfl

theorem taskTick_current (t : TaskTable) : (taskTick t).current = t.current := by
  unfold taskTick
  split <;> rfl

theorem Idle.tick {t : TaskTable} (h : Idle t) : Idle (taskTick t) where
  shell := by rw [taskTick_count]; exact h.shell
  current := by rw [taskTick_current]; exact h.current
  pid i hi := by
    rw [taskTick_count] at hi
    rw [taskTick_field (·.pid) t (fun _ _ => rfl), h.pid i hi]
  state i hi := by
    rw [taskTick_count] at hi
    rw [taskTick_field (·.state) t (fun _ _ => rfl), h.state i hi]

/-- The tick is charged to another task than the one that is being added. -/
theorem Busy.tick_assigned {t : TaskTable} {frame : RunFrame} (h : Busy t frame) :
    frame.next.Assigned ((taskTick t).tasks frame.slot) frame.slot := by
  by_cases hinside : frame.next.inside = true
  · cases hnext : frame.next <;> simp_all [RunStatement.inside, RunStatement.Assigned]
  · have hne : frame.slot ≠ t.current := by
      rw [h.current, if_neg hinside]
      exact h.slot
    have hsame : (taskTick t).tasks frame.slot = t.tasks frame.slot := by
      unfold taskTick
      split
      · exact t.modify_tasks_of_ne _ hne
      · rfl
    rw [hsame]
    exact h.assigned

theorem Busy.tick {t : TaskTable} {frame : RunFrame} (h : Busy t frame) :
    Busy (taskTick t) frame where
  parent := h.parent
  slot := h.slot
  count := by rw [taskTick_count]; exact h.count
  current := by rw [taskTick_current]; exact h.current
  pid i hi := by
    rw [taskTick_count] at hi
    rw [taskTick_field (·.pid) t (fun _ _ => rfl), h.pid i hi]
  state i hi := by
    rw [taskTick_count] at hi
    rw [taskTick_field (·.state) t (fun _ _ => rfl), h.state i hi]
  assigned := h.tick_assigned

/-- A statement of `add_task` before the last works on a slot outside the count. -/
theorem Busy.add {t : TaskTable} {frame : RunFrame} (h : Busy t frame) (next : RunStatement)
    {f : Task → Task} (hcounted : frame.next.counted = false) (hnext : next.counted = false)
    (hassigned : next.Assigned (f (t.tasks frame.slot)) frame.slot) :
    Busy (t.modify frame.slot f) { frame with next := next } := by
  have hcount : t.count = frame.slot.val := by rw [h.count, hcounted]; rfl
  have hstatements : ∀ statement : RunStatement, statement.counted = false →
      statement.inside = false ∧ statement.parentState = .running := by
    rintro (_ | _) hs <;> simp_all [RunStatement.counted, RunStatement.inside,
      RunStatement.parentState]
  have hrest : ∀ i : Fin 16, i.val < t.count → i ≠ frame.slot := by
    rintro i hi rfl
    omega
  refine ⟨h.parent, h.slot, ?_, ?_, ?_, ?_, ?_⟩
  · simp [hcount, hnext]
  · simp [h.current, (hstatements _ hcounted).1, (hstatements _ hnext).1]
  · intro i hi
    rw [t.modify_tasks_of_ne f (hrest i hi)]
    exact h.pid i hi
  · intro i hi
    rw [t.modify_tasks_of_ne f (hrest i hi), h.state i hi, (hstatements _ hcounted).2,
      if_neg (hrest i hi)]
    simp [(hstatements _ hnext).2, hrest i hi]
  · simpa using hassigned

/-- A statement that sets the state of one task. -/
theorem Busy.setState {t : TaskTable} {frame : RunFrame} (h : Busy t frame) {next : RunStatement}
    {slot : Fin 16} {state : TaskState} (hcounted : frame.next.counted = true)
    (hnext : next.counted = true) (hinside : next.inside = frame.next.inside)
    (hstate : ∀ i : Fin 16, (if i = 0 then next.parentState else
        if i = frame.slot then next.slotState else .zombie) =
      if i = slot then state else if i = 0 then frame.next.parentState else
        if i = frame.slot then frame.next.slotState else .zombie) :
    Busy (t.modify slot fun task => { task with state := state })
      { frame with next := next } := by
  refine ⟨h.parent, h.slot, ?_, ?_, ?_, ?_, ?_⟩
  · simp [h.count, hcounted, hnext]
  · simp [h.current, hinside]
  · intro i hi
    have hpid := t.modify_field (·.pid) slot (f := fun task => { task with state := state })
      (fun _ => rfl) i
    exact hpid.trans (h.pid i hi)
  · intro i hi
    rw [hstate i]
    by_cases hslot : i = slot
    · subst i
      simp
    · rw [t.modify_tasks_of_ne _ hslot, if_neg hslot]
      exact h.state i hi
  · cases next with
    | add statement => simp [RunStatement.counted] at hnext
    | _ => trivial

/-- Every statement leads to the table that the next one expects. -/
theorem Busy.statement {t : TaskTable} {frame : RunFrame} (h : Busy t frame)
    {next : RunStatement} (hsucc : frame.next.succ = some next) :
    Busy (runStatement t frame) { frame with next := next } := by
  have hslot := h.slot
  have hassigned := h.assigned
  obtain ⟨name, image, parent, slot, current⟩ := frame
  cases current with
  | add statement =>
    cases statement <;> obtain rfl := Option.some.inj hsucc <;>
      simp only [runStatement, addStatement]
    case pid =>
      have hcount : t.count = slot.val := h.count
      refine h.add (.add .name) rfl rfl ?_
      simp [RunStatement.Assigned, hcount]
    case name => exact h.add (.add .terminator) rfl rfl hassigned
    case terminator => exact h.add (.add .state) rfl rfl hassigned
    case state => exact h.add (.add .ticks) rfl rfl ⟨hassigned, rfl⟩
    case ticks => exact h.add (.add .kernelTask) rfl rfl ⟨hassigned.1, hassigned.2, rfl⟩
    case kernelTask => exact h.add (.add .count) rfl rfl hassigned
    case count =>
      have hcount : t.count = slot.val := h.count
      refine ⟨h.parent, h.slot, ?_, h.current, ?_, ?_, trivial⟩
      · simp [hcount, RunStatement.counted]
      · intro i hi
        rcases Nat.lt_succ_iff_lt_or_eq.mp hi with hlt | heq
        · exact h.pid i hlt
        · obtain rfl : i = slot := Fin.ext (heq.trans hcount)
          exact hassigned.1
      · intro i hi
        rcases Nat.lt_succ_iff_lt_or_eq.mp hi with hlt | heq
        · have hne : i ≠ slot := by
            rintro rfl
            omega
          simpa [hne, RunStatement.parentState] using h.state i hlt
        · obtain rfl : i = slot := Fin.ext (heq.trans hcount)
          simpa [hslot, RunStatement.slotState] using hassigned.2.1
  | clear | load | body =>
    obtain rfl := Option.some.inj hsucc
    exact ⟨h.parent, h.slot, h.count, h.current, h.pid, h.state, trivial⟩
  | parentReady =>
    obtain rfl := Option.some.inj hsucc
    obtain rfl : parent = 0 := h.parent
    exact h.setState rfl rfl rfl fun i => by
      by_cases hi : i = 0 <;> simp [hi, RunStatement.parentState, RunStatement.slotState]
  | slotRunning =>
    obtain rfl := Option.some.inj hsucc
    exact h.setState rfl rfl rfl fun i => by
      by_cases hi : i = slot <;>
        simp_all [RunStatement.parentState, RunStatement.slotState]
  | zombie =>
    obtain rfl := Option.some.inj hsucc
    exact h.setState rfl rfl rfl fun i => by
      by_cases hi : i = slot <;>
        simp_all [RunStatement.parentState, RunStatement.slotState]
  | parentRunning =>
    obtain rfl := Option.some.inj hsucc
    obtain rfl : parent = 0 := h.parent
    exact h.setState rfl rfl rfl fun i => by
      by_cases hi : i = 0 <;> simp [hi, RunStatement.parentState, RunStatement.slotState]
  | enter =>
    obtain rfl := Option.some.inj hsucc
    exact ⟨h.parent, h.slot, h.count, rfl, h.pid, h.state, trivial⟩
  | leave =>
    obtain rfl := Option.some.inj hsucc
    exact ⟨h.parent, h.slot, h.count, h.parent, h.pid, h.state, trivial⟩
  | result => nomatch hsucc

theorem Busy.idle {t : TaskTable} {frame : RunFrame} (h : Busy t frame)
    (hnext : frame.next.succ = none) : Idle (runStatement t frame) := by
  obtain ⟨name, image, parent, slot, next⟩ := frame
  cases next with
  | result =>
    refine ⟨?_, h.current, h.pid, ?_⟩
    · have hcount : t.count = slot.val + 1 := h.count
      simp [runStatement, hcount]
    · intro i hi
      have hstate := h.state i hi
      simpa [runStatement, RunStatement.parentState, RunStatement.slotState] using hstate
  | add statement => cases statement <;> nomatch hnext
  | _ => nomatch hnext

theorem idle_taskInit (t : TaskTable) : Idle (taskInit t) := by
  have hadd : ∃ task : Task, task.pid = 1 ∧ task.state = .running ∧ task.runtimeTicks = 0 ∧
      taskInit t = ⟨Function.update t.tasks 0 task, 1, 0⟩ := by
    refine ⟨(taskInit t).tasks 0, ?_, ?_, ?_, ?_⟩ <;>
      simp [taskInit, addTask, addStatement, maxTasks, TaskTable.modify]
  obtain ⟨task, hpid, hstate, -, hinit⟩ := hadd
  rw [hinit]
  have hshell : ∀ i : Fin 16, i.val < 1 → i = 0 := fun i hi => Fin.ext (by simpa using hi)
  refine ⟨Nat.one_pos, rfl, ?_, ?_⟩
  · intro i hi
    obtain rfl := hshell i hi
    simp [hpid]
  · intro i hi
    obtain rfl := hshell i hi
    simp [hstate]

/-! ## Ticks and programs along a run -/

theorem totalTicks_runStatement {t : TaskTable} {frame : RunFrame} (h : Busy t frame) :
    (runStatement t frame).totalTicks = t.totalTicks := by
  have hassigned := h.assigned
  obtain ⟨name, image, parent, slot, next⟩ := frame
  cases next with
  | add statement =>
    have hcount : t.count = slot.val := h.count
    cases statement with
    | count =>
      simp only [runStatement, addStatement]
      rw [totalTicks_count_succ hcount.symm, hassigned.2.2]
      simp
    | _ => exact totalTicks_modify_unused t _ hcount.le
  | parentReady | slotRunning | zombie | parentRunning => exact totalTicks_modify t _ fun _ => rfl
  | _ => rfl

/-- The program has been entered before a statement. -/
def RunStatement.entered : RunStatement → Bool
  | .body | .zombie | .leave | .parentRunning | .result => true
  | _ => false

/-- The program has returned before a statement. -/
def RunStatement.returned : RunStatement → Bool
  | .zombie | .leave | .parentRunning | .result => true
  | _ => false

/-- The slots whose program has been entered lie below this one. -/
def TaskSystem.startedBound (s : TaskSystem World) : Nat :=
  match s.frame with
  | none => s.table.count
  | some frame => if frame.next.entered then frame.slot.val + 1 else frame.slot.val

/-- The slots whose program has returned lie below this one. -/
def TaskSystem.finishedBound (s : TaskSystem World) : Nat :=
  match s.frame with
  | none => s.table.count
  | some frame => if frame.next.returned then frame.slot.val + 1 else frame.slot.val

def TableInvariant (t : TaskTable) : Option RunFrame → Prop
  | none => Idle t
  | some frame => Busy t frame

structure TaskInvariant (s : TaskSystem World) : Prop where
  table : TableInvariant s.table s.frame
  ticks : s.table.totalTicks ≡ s.ticks [MOD 2 ^ 32]
  started : ∀ slot ∈ s.started, slot.val < s.startedBound
  nodup : s.started.Nodup
  finished : ∀ slot ∈ s.finished, slot ∈ s.started ∧ slot ≠ 0 ∧ slot.val < s.finishedBound
  inside : ∀ frame, s.frame = some frame → frame.next = .body → frame.slot ∈ s.started

theorem Busy.slot_lt {t : TaskTable} {frame : RunFrame} (h : Busy t frame)
    (hcounted : frame.next.counted = true) : frame.slot.val < t.count := by
  rw [h.count, if_pos hcounted]
  exact Nat.lt_succ_self _

theorem Busy.shell_lt {t : TaskTable} {frame : RunFrame} (h : Busy t frame) : 0 < t.count := by
  have hslot : 0 < frame.slot.val := Nat.pos_of_ne_zero fun hzero => h.slot (Fin.ext hzero)
  rw [h.count]
  split <;> omega

theorem TableInvariant.current_lt {t : TaskTable} {frame : Option RunFrame}
    (h : TableInvariant t frame) : t.current.val < t.count := by
  cases frame with
  | none =>
    rw [Idle.current h]
    exact Idle.shell h
  | some frame =>
    rw [Busy.current h]
    split
    · rename_i hinside
      apply Busy.slot_lt h
      cases hnext : frame.next <;> simp_all [RunStatement.inside, RunStatement.counted]
    · exact Busy.shell_lt h

theorem taskInvariant_boot (t : TaskTable) (program : Buffer maxProgramSize) (world : World) :
    TaskInvariant (TaskSystem.boot t program world) where
  table := idle_taskInit t
  ticks := by
    have hcount : (taskInit t).count = 1 := by simp [taskInit, addTask, addStatement, maxTasks]
    have hfilter : (Finset.univ.filter fun i : Fin 16 => i.val < 1) = {0} := by decide
    simp only [TaskSystem.boot, TaskTable.totalTicks, hcount, hfilter, Finset.sum_singleton]
    simp [taskInit, addTask, addStatement, maxTasks, TaskTable.modify, Nat.ModEq]
  started := by simp [TaskSystem.boot]
  nodup := List.nodup_nil
  finished := by simp [TaskSystem.boot]
  inside := by simp [TaskSystem.boot]

theorem TaskInvariant.tick {s : TaskSystem World} (h : TaskInvariant s) :
    TaskInvariant (taskStep s .tick) := by
  have hcount := taskTick_count s.table
  refine ⟨?_, ?_, ?_, h.nodup, ?_, h.inside⟩
  · have htable := h.table
    simp only [taskStep]
    cases hframe : s.frame with
    | none =>
      rw [hframe] at htable
      exact Idle.tick htable
    | some frame =>
      rw [hframe] at htable
      exact Busy.tick htable
  · exact (totalTicks_taskTick h.table.current_lt).trans (h.ticks.add_right 1)
  · simpa only [taskStep, TaskSystem.startedBound, hcount] using h.started
  · simpa only [taskStep, TaskSystem.finishedBound, hcount] using h.finished

theorem TaskInvariant.call {s : TaskSystem World} (h : TaskInvariant s) (name image : Bytes) :
    TaskInvariant (taskStep s (.call name image)) := by
  cases hframe : s.frame with
  | some frame => simpa [taskStep, hframe] using h
  | none =>
    have htable := h.table
    have hstarted := h.started
    have hfinished := h.finished
    simp only [hframe, TaskSystem.startedBound, TaskSystem.finishedBound] at htable hstarted hfinished
    have hidle : Idle s.table := htable
    simp only [taskStep, hframe, Option.isNone_none, if_true, taskCall]
    split
    · rename_i hroom
      refine ⟨?_, h.ticks, hstarted, h.nodup, hfinished, ?_⟩
      · have hslot : (⟨s.table.count, hroom.1⟩ : Fin 16) ≠ 0 := by
          intro hzero
          have hval := congrArg Fin.val hzero
          exact absurd hval hidle.shell.ne'
        refine ⟨hidle.current, hslot, rfl, hidle.current, hidle.pid, ?_, trivial⟩
        intro i hi
        have hne : i ≠ ⟨s.table.count, hroom.1⟩ := by
          rintro rfl
          exact absurd hi (lt_irrefl _)
        simpa [hne, RunStatement.parentState] using hidle.state i hi
      · rintro frame hsome hbody
        obtain rfl := Option.some.inj hsome
        nomatch hbody
    · exact ⟨htable, h.ticks, hstarted, h.nodup, hfinished, by simp⟩

theorem RunStatement.succ_eq_none {statement : RunStatement} (h : statement.succ = none) :
    statement = .result := by
  cases statement with
  | add statement => cases statement <;> simp [RunStatement.succ] at h
  | result => rfl
  | _ => simp [RunStatement.succ] at h

/-- A program is entered by the one statement and returns from the other. -/
theorem RunStatement.succ_entered {statement next : RunStatement}
    (h : statement.succ = some next) :
    next.entered = (statement.entered || statement = .enter) ∧
      next.returned = (statement.returned || statement = .body) ∧
      (next = .body → statement = .enter) := by
  cases statement with
  | add statement => cases statement <;> (obtain rfl := Option.some.inj h; decide)
  | result => nomatch h
  | _ => obtain rfl := Option.some.inj h; decide

theorem TaskInvariant.next {s : TaskSystem World} (h : TaskInvariant s) :
    TaskInvariant (taskStep s .next) := by
  cases hframe : s.frame with
  | none => simpa [taskStep, hframe] using h
  | some frame =>
    have htable := h.table
    have hstarted := h.started
    have hfinished := h.finished
    have hinside := h.inside frame hframe
    simp only [hframe, TaskSystem.startedBound, TaskSystem.finishedBound] at htable hstarted hfinished
    have hbusy : Busy s.table frame := htable
    have htotal : (runStatement s.table frame).totalTicks ≡ s.ticks [MOD 2 ^ 32] := by
      rw [totalTicks_runStatement hbusy]
      exact h.ticks
    simp only [taskStep, hframe, Option.map_some, Option.getD_some, taskNext]
    cases hsucc : frame.next.succ with
    | none =>
      have hresult := RunStatement.succ_eq_none hsucc
      have hcount : s.table.count = frame.slot.val + 1 := by
        simp [hbusy.count, hresult, RunStatement.counted]
      refine ⟨hbusy.idle hsucc, htotal, ?_, ?_, ?_, by simp⟩
      · simpa [TaskSystem.startedBound, hresult, runStatement, hcount, RunStatement.entered]
          using hstarted
      · simpa [hresult] using h.nodup
      · simpa [TaskSystem.finishedBound, hresult, runStatement, hcount, RunStatement.returned]
          using hfinished
    | some next =>
      obtain ⟨hentered, hreturned, hbody⟩ := RunStatement.succ_entered hsucc
      refine ⟨hbusy.statement hsucc, htotal, ?_, ?_, ?_, ?_⟩
      · intro slot hslot
        simp only [TaskSystem.startedBound, Option.map_some, hentered]
        by_cases henter : frame.next = .enter
        · simp only [henter, if_true, List.mem_append, List.mem_singleton] at hslot
          simp only [henter, RunStatement.entered] at hstarted ⊢
          rcases hslot with hslot | rfl
          · exact (hstarted slot hslot).trans (Nat.lt_succ_self _)
          · exact Nat.lt_succ_self _
        · simp only [henter, if_false] at hslot
          simpa [henter] using hstarted slot hslot
      · by_cases henter : frame.next = .enter
        · simp only [henter, RunStatement.entered] at hstarted ⊢
          refine List.Nodup.append h.nodup (List.nodup_singleton _) ?_
          intro slot hslot heq
          obtain rfl := List.mem_singleton.mp heq
          exact absurd (hstarted _ hslot) (lt_irrefl _)
        · simpa only [henter, if_false] using h.nodup
      · intro slot hslot
        simp only [TaskSystem.finishedBound, Option.map_some, hreturned]
        by_cases hleft : frame.next = .body
        · simp only [hleft, if_true, List.mem_append, List.mem_singleton] at hslot
          simp only [hleft, RunStatement.returned] at hfinished ⊢
          rcases hslot with hslot | rfl
          · obtain ⟨hmem, hne, hlt⟩ := hfinished slot hslot
            exact ⟨by simpa using hmem, hne, hlt.trans (Nat.lt_succ_self _)⟩
          · exact ⟨by simpa using hinside hleft, hbusy.slot, Nat.lt_succ_self _⟩
        · simp only [hleft, if_false] at hslot
          obtain ⟨hmem, hne, hlt⟩ := hfinished slot hslot
          refine ⟨?_, hne, by simpa [hleft] using hlt⟩
          split
          · exact List.mem_append_left _ hmem
          · exact hmem
      · rintro _ hsome hnext
        obtain rfl := Option.some.inj hsome
        simp [hbody hnext]

theorem TaskInvariant.step (s : TaskSystem World) (op : TaskOp World) (h : TaskInvariant s) :
    TaskInvariant (taskStep s op) := by
  cases op with
  | tick => exact h.tick
  | call name image => exact h.call name image
  | next => exact h.next
  | effect f =>
    simp only [taskStep]
    split
    · exact ⟨h.table, h.ticks, h.started, h.nodup, h.finished, h.inside⟩
    · exact h

theorem taskInvariant_run (t : TaskTable) (program : Buffer maxProgramSize) (world : World)
    (ops : List (TaskOp World)) :
    TaskInvariant (run taskStep (.boot t program world) ops) :=
  run_invariant TaskInvariant.step (taskInvariant_boot t program world) ops

/-! ## The law of the task table -/

/-- Between two calls, or while a program runs. -/
def TaskSystem.Observed (s : TaskSystem World) : Prop :=
  ∀ frame, s.frame = some frame → frame.next = .body

/-- What the table shows between two calls and to a running program. -/
structure TaskLaw (s : TaskSystem World) : Prop where
  current : s.table.current.val < s.table.count
  running : ∀ i : Fin 16, i.val < s.table.count →
    ((s.table.tasks i).state = .running ↔ i = s.table.current)
  pid : ∀ i : Fin 16, i.val < s.table.count → (s.table.tasks i).pid = i.val + 1
  finished : ∀ slot ∈ s.finished,
    slot.val < s.table.count ∧ (s.table.tasks slot).state = .zombie
  ticks : s.table.totalTicks % 2 ^ 32 = s.ticks % 2 ^ 32

theorem TaskInvariant.law {s : TaskSystem World} (h : TaskInvariant s) (hs : s.Observed) :
    TaskLaw s := by
  have htable := h.table
  have hfinished := h.finished
  cases hframe : s.frame with
  | none =>
    simp only [hframe, TaskSystem.finishedBound] at htable hfinished
    have hidle : Idle s.table := htable
    refine ⟨h.table.current_lt, ?_, hidle.pid, ?_, h.ticks⟩
    · intro i hi
      rw [hidle.state i hi, hidle.current]
      by_cases hzero : i = 0 <;> simp [hzero]
    · intro slot hslot
      obtain ⟨-, hne, hlt⟩ := hfinished slot hslot
      exact ⟨hlt, by rw [hidle.state slot hlt, if_neg hne]⟩
  | some frame =>
    have hbody := hs frame hframe
    simp only [hframe, TaskSystem.finishedBound, hbody] at htable hfinished
    have hbusy : Busy s.table frame := htable
    have hlt : frame.slot.val < s.table.count :=
      hbusy.slot_lt (by rw [hbody]; rfl)
    have hcurrent : s.table.current = frame.slot := by
      rw [hbusy.current, hbody]
      rfl
    refine ⟨h.table.current_lt, ?_, hbusy.pid, ?_, h.ticks⟩
    · intro i hi
      rw [hbusy.state i hi, hcurrent, hbody]
      have hslot := hbusy.slot
      by_cases hzero : i = 0
      · simp [hzero, RunStatement.parentState, hslot.symm]
      · by_cases hi : i = frame.slot <;> simp [hi, hzero, hslot, RunStatement.slotState]
    · intro slot hslot
      obtain ⟨-, hne, hbound⟩ := hfinished slot hslot
      have hother : slot ≠ frame.slot := by
        rintro rfl
        exact absurd hbound (lt_irrefl _)
      have hcount : slot.val < s.table.count := lt_trans hbound hlt
      refine ⟨hcount, ?_⟩
      rw [hbusy.state slot hcount, if_neg hne, if_neg hother]

theorem taskStep_finished (s : TaskSystem World) (op : TaskOp World) :
    s.finished ⊆ (taskStep s op).finished := by
  cases op with
  | tick => exact List.Subset.refl _
  | call name image =>
    simp only [taskStep, taskCall]
    split
    · split <;> exact List.Subset.refl _
    · exact List.Subset.refl _
  | next =>
    cases hframe : s.frame with
    | none => simp [taskStep, hframe]
    | some frame =>
      simp only [taskStep, hframe, Option.map_some, Option.getD_some, taskNext]
      split
      · exact List.subset_append_left _ _
      · exact List.Subset.refl _
  | effect f =>
    simp only [taskStep]
    split <;> exact List.Subset.refl _

theorem run_finished (s : TaskSystem World) (ops : List (TaskOp World)) :
    s.finished ⊆ (run taskStep s ops).finished := by
  induction ops generalizing s with
  | nil => exact List.Subset.refl _
  | cons op ops ih => exact fun slot hslot => ih _ (taskStep_finished s op hslot)

/-- A call that returns `-1` has been refused by its test, in one step. -/
theorem TaskInvariant.refused {s : TaskSystem World} (h : TaskInvariant s) {op : TaskOp World}
    (hop : (taskStep s op).results = s.results ++ [-1]) :
    s.frame = none ∧ (taskStep s op).frame = none ∧ (taskStep s op).table = s.table := by
  have hnone : s.results ≠ s.results ++ [-1] := by simp
  cases hframe : s.frame with
  | none =>
    cases op with
    | call name image =>
      simp only [taskStep, hframe, Option.isNone_none, if_true, taskCall] at hop ⊢
      split at hop
      · exact absurd hop hnone
      · rename_i hroom
        rw [dif_neg hroom]
        exact ⟨trivial, rfl, rfl⟩
    | tick => exact absurd hop hnone
    | next => simp [taskStep, hframe] at hop
    | effect f => simp [taskStep, hframe] at hop
  | some frame =>
    have hsame : (taskStep s op).results = s.results ∨
        frame.next = .result ∧
          (taskStep s op).results = s.results ++ [(s.table.tasks frame.slot).pid] := by
      cases op with
      | next => by_cases hresult : frame.next = .result <;> simp [taskStep, hframe, taskNext, hresult]
      | effect f =>
        left
        simp only [taskStep]
        split <;> rfl
      | _ => left; simp [taskStep, hframe]
    rcases hsame with hsame | ⟨hresult, hpid⟩
    · exact absurd (hsame.symm.trans hop) hnone
    · have htable := h.table
      rw [hframe] at htable
      have hbusy : Busy s.table frame := htable
      have hslot := hbusy.pid frame.slot (hbusy.slot_lt (by rw [hresult]; rfl))
      have heq := List.append_cancel_left (hpid.symm.trans hop)
      rw [hslot, List.cons.injEq] at heq
      omega

/-- A state of the kernel: what its table shows, that no slot is run twice, that a program that has
ended stays a zombie and is not entered again, and that a refused call changes nothing. -/
structure TaskRun (s : TaskSystem World) : Prop where
  observed : s.Observed → TaskLaw s
  once : s.started.Nodup
  retired : ∀ slot ∈ s.finished, ∀ more : List (TaskOp World),
    (run taskStep s more).started.count slot = 1 ∧
      ((run taskStep s more).Observed → ((run taskStep s more).table.tasks slot).state = .zombie)
  refused : ∀ op, (taskStep s op).results = s.results ++ [-1] →
    s.frame = none ∧ (taskStep s op).frame = none ∧ (taskStep s op).table = s.table

theorem task_run (t : TaskTable) (program : Buffer maxProgramSize) (world : World)
    (ops : List (TaskOp World)) : TaskRun (run taskStep (.boot t program world) ops) where
  observed := (taskInvariant_run t program world ops).law
  once := (taskInvariant_run t program world ops).nodup
  retired slot hslot more := by
    have hrun := run_invariant TaskInvariant.step (taskInvariant_run t program world ops) more
    have hlater := run_finished _ more hslot
    refine ⟨List.count_eq_one_of_mem hrun.nodup (hrun.finished slot hlater).1, fun hs => ?_⟩
    exact ((hrun.law hs).finished slot hlater).2
  refused _ hop := (taskInvariant_run t program world ops).refused hop

end SnsxOS.X86
