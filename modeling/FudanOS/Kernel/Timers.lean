import FudanOS.Common.RbRuns
import FudanOS.Kernel.Sched

/-!
# Timers

The timers of one CPU, from `kernel/cpu.c` and `kernel/sched.c`, in the
red-black tree of `common/rbtree.c`.  No data is shared with the timers of
other CPUs.  A handler may switch to another process, so that the loop of
`timer_clock_handler` goes on much later; a run has its rounds and the calls of
`sched` in any order.
-/

namespace FudanOS.Kernel.Timers

open FudanOS.Common.RbTree
open FudanOS.Library
open FudanOS.Library.Runs

/-! ## The functions -/

/-- The timers of a CPU, each with a handler of its own. -/
inductive Name where
  /-- `hello_timer[cpuid()]`, with the handler `hello` -/
  | hello
  /-- `sched_timer[cpuid()]`, with the handler `timer_handler` -/
  | sched
  deriving DecidableEq

/-- `struct timer`, without the node -/
structure Timer where
  triggered : Bool
  elapse : Int
  key : BitVec 64
  data : BitVec 64
  deriving DecidableEq

inductive Halt where
  | assertion
  /-- A function of the tree has failed. -/
  | tree (fault : Fault)
  deriving DecidableEq

/-- The addresses of the nodes, and what the clock of the CPU reads. -/
structure Cpu where
  node : Name → Pointer
  isNode : ∀ name, IsNode (node name)
  distinct : node .hello ≠ node .sched
  /-- The results of `get_timestamp_ms`, one after the other. -/
  times : Nat → BitVec 64
  monotone : ∀ {first second}, first ≤ second → times first ≤ times second
  bounded : ∀ reading, (times reading).toNat + 5000 < 2 ^ 63
  /-- `get_clock_frequency()` -/
  frequency : BitVec 64
  slow : 5000 * frequency.toNat / 1000 ≤ 0x7fffffff

structure State where
  /-- `cpus[cpuid()].timer`, and the nodes -/
  nodes : Memory
  timers : Name → Timer
  /-- How often `get_timestamp_ms` has been called. -/
  reads : Nat
  /-- The interval for which the clock has been set. -/
  interval : BitVec 64
  /-- The calls of `get_timestamp_ms` before the clock has been set. -/
  setAfter : Nat

section Functions

variable
    (cpu : Cpu)
    (fuel : Nat)

/-- `container_of(node, struct timer, _node)` -/
def nameAt (node : Pointer) : Name :=
  if node = cpu.node .hello then .hello else .sched

/-- `__timer_cmp` -/
def timerCmp (timers : Name → Timer) (lnode rnode : Pointer) : Bool :=
  let d :=
    (timers (nameAt cpu lnode)).key - (timers (nameAt cpu rnode)).key
  if d.slt 0 then true
  else if d = 0 then decide (lnode < rnode)
  else false

def ofTree {Value : Type} (called : Except Fault Value) :
    Except Halt Value :=
  called.mapError .tree

/-- `get_timestamp_ms` -/
def getTimestampMs (state : State) : BitVec 64 × State :=
  (cpu.times state.reads, { state with reads := state.reads + 1 })

/-- `reset_clock` -/
def resetClock (interval : BitVec 64) (state : State) :
    Except Halt State :=
  if interval * cpu.frequency / 1000 ≤ 0x7fffffff then
    .ok { state with interval := interval, setAfter := state.reads }
  else
    .error .assertion

/-- `__timer_set_clock` -/
def timerSetClock (state : State) : Except Halt State := do
  let node ← ofTree (rbFirst fuel state.nodes)
  if node = 0 then
    resetClock cpu 10 state
  else
    let t1 := (state.timers (nameAt cpu node)).key
    let (t0, state) := getTimestampMs cpu state
    if t1 ≤ t0 then resetClock cpu 0 state
    else resetClock cpu (t1 - t0) state

def State.setTimer (state : State) (name : Name) (timer : Timer) : State :=
  { state with timers := Function.update state.timers name timer }

/-- `set_cpu_timer` -/
def setCpuTimer (name : Name) (state : State) : Except Halt State := do
  let (now, state) := getTimestampMs cpu state
  let timer := state.timers name
  let state :=
    state.setTimer name
      { timer with
        triggered := false
        key := now + BitVec.ofInt 64 timer.elapse }
  let (result, nodes) ←
    ofTree
      (rbInsert fuel (timerCmp cpu state.timers) (cpu.node name) state.nodes)
  if result = 0 then
    timerSetClock cpu fuel { state with nodes := nodes }
  else
    .error .assertion

/-- `cancel_cpu_timer` -/
def cancelCpuTimer (name : Name) (state : State) : Except Halt State := do
  if (state.timers name).triggered then
    .error .assertion
  else
    let nodes ← ofTree (rbErase fuel (cpu.node name) state.nodes)
    timerSetClock cpu fuel { state with nodes := nodes }

/-- `update_this_proc` -/
def updateThisProc (state : State) : Except Halt State := do
  let state ←
    if (state.timers .sched).triggered then .ok state
    else cancelCpuTimer cpu fuel .sched state
  setCpuTimer cpu fuel .sched state

/-- `sched(new_state)`, where `killed` is the flag of `this` -/
def sched (killed : Bool) (newState : Sched.ProcState) (state : State) :
    Except Halt State :=
  if killed ∧ newState ≠ .zombie then .ok state
  else updateThisProc cpu fuel state

/-- `timer->handler(timer)` -/
def handle (killed : Bool) (name : Name) (state : State) :
    Except Halt State :=
  match name with
  | .hello =>
      let timer := state.timers .hello
      setCpuTimer cpu fuel .hello
        (state.setTimer .hello { timer with data := timer.data + 1 })
  | .sched =>
      let timer := state.timers .sched
      sched cpu fuel killed .runnable
        (state.setTimer .sched { timer with data := 0 })

/-- One round of the loop of `timer_clock_handler`; `false` where it ends. -/
def clockRound (killed : Bool) (state : State) :
    Except Halt (Bool × State) := do
  let node ← ofTree (rbFirst fuel state.nodes)
  if node = 0 then
    return (false, state)
  else
    let name := nameAt cpu node
    let (now, state) := getTimestampMs cpu state
    if now < (state.timers name).key then
      return (false, state)
    else
      let state ← cancelCpuTimer cpu fuel name state
      let timer := state.timers name
      let state :=
        state.setTimer name { timer with triggered := true }
      let state ← handle cpu fuel killed name state
      return (true, state)

/-- `init_clock()`, and what `set_cpu_on` does with its timer -/
def setCpuOn (state : State) : Except Halt State := do
  let state ← resetClock cpu 10 state
  let timer := state.timers .hello
  setCpuTimer cpu fuel .hello
    (state.setTimer .hello { timer with elapse := 5000 })

end Functions

/-! ## Runs -/

inductive Label where
  /-- A process calls `sched`. -/
  | sched (killed : Bool) (newState : Sched.ProcState)
  /-- The first line of `timer_clock_handler` -/
  | interrupt
  /-- The next round of a loop of `timer_clock_handler` -/
  | round (killed : Bool)
  deriving DecidableEq

def step (cpu : Cpu) (fuel : Nat) (state : State) :
    Label → Except Halt State
  | .sched killed newState => sched cpu fuel killed newState state
  | .interrupt => resetClock cpu 10 state
  | .round killed => do
      let (_, state) ← clockRound cpu fuel killed state
      return state

/-- What `init_sched` and the zeroed variables are before `set_cpu_on`. -/
structure Initial (state : State) : Prop where
  empty : state.nodes.root = 0
  hello : state.timers .hello = ⟨false, 0, 0, 0⟩
  sched : ∃ data, state.timers .sched = ⟨true, 5, 0, data⟩

/-! ## The order of the timers -/

section Order

variable
    {cpu : Cpu}
    {timers : Name → Timer}

@[simp]
theorem nameAt_node (cpu : Cpu) (name : Name) :
    nameAt cpu (cpu.node name) = name := by
  cases name with
  | hello => exact if_pos rfl
  | sched => exact if_neg cpu.distinct.symm

theorem node_injective (cpu : Cpu) : Function.Injective cpu.node := by
  intro left right same
  rw [← nameAt_node cpu left, same, nameAt_node]

/-- The keys are compared as numbers when they are below `2 ^ 63`. -/
theorem timerCmp_iff
    (small : ∀ name, (timers name).key.toNat < 2 ^ 63)
    (lnode rnode : Pointer) :
    timerCmp cpu timers lnode rnode = true ↔
      (timers (nameAt cpu lnode)).key.toNat <
          (timers (nameAt cpu rnode)).key.toNat ∨
        (timers (nameAt cpu lnode)).key.toNat =
            (timers (nameAt cpu rnode)).key.toNat ∧
          lnode.toNat < rnode.toNat := by
  have left := small (nameAt cpu lnode)
  have right := small (nameAt cpu rnode)
  unfold timerCmp
  generalize (timers (nameAt cpu lnode)).key = first at left ⊢
  generalize (timers (nameAt cpu rnode)).key = second at right ⊢
  have negative :
      (first - second).slt 0 = true ↔ first.toNat < second.toNat := by
    rw [BitVec.slt_iff_toInt_lt, BitVec.toInt_eq_toNat_cond,
      BitVec.toNat_sub]
    change _ < (0 : Int) ↔ _
    split_ifs <;> omega
  have zero : first - second = 0 ↔ first.toNat = second.toNat := by
    rw [← BitVec.toNat_inj, BitVec.toNat_sub]
    change _ = 0 ↔ _
    omega
  dsimp only
  split_ifs with less equal
  · exact ⟨fun _ => Or.inl (negative.mp less), fun _ => rfl⟩
  · rw [decide_eq_true_iff, BitVec.lt_def]
    have same := zero.mp equal
    omega
  · have notLess := mt negative.mpr less
    have notSame := mt zero.mpr equal
    constructor
    · intro impossible
      cases impossible
    · omega

theorem timerCmp_trans
    (small : ∀ name, (timers name).key.toNat < 2 ^ 63)
    (left middle right : Pointer)
    (first : timerCmp cpu timers left middle = true)
    (second : timerCmp cpu timers middle right = true) :
    timerCmp cpu timers left right = true := by
  rw [timerCmp_iff small] at first second ⊢
  omega

/-- Only a node itself is equal to it. -/
theorem eq_of_equal
    (small : ∀ name, (timers name).key.toNat < 2 ^ 63)
    {node other : Pointer}
    (equal : Equal (timerCmp cpu timers) node other) :
    node = other := by
  rcases equal with ⟨notLess, notGreater⟩
  rw [← Bool.not_eq_true, timerCmp_iff small] at notLess notGreater
  apply BitVec.eq_of_toNat_eq
  omega

end Order

/-! ## What the functions do -/

/-- The tree holds the nodes of these timers. -/
structure Holds
    (cpu : Cpu)
    (state : State)
    (armed : List Name) : Prop where
  tree :
    ∃ tree,
      Represents (timerCmp cpu state.timers)
        ⟨state.nodes, armed.map cpu.node⟩ tree
  small : ∀ name, (state.timers name).key.toNat < 2 ^ 63
  /-- No timer is set for more than five seconds. -/
  near :
    ∀ name ∈ armed, ∀ reading, state.reads ≤ reading →
      (state.timers name).key.toNat ≤ (cpu.times reading).toNat + 5000

/-- The clock goes off before the timers do, or within 10 ms. -/
def Alarmed (cpu : Cpu) (state : State) (armed : List Name) : Prop :=
  state.interval.toNat ≤ 10 ∨
    ∀ name ∈ armed, ∀ reading < state.setAfter,
      (cpu.times reading).toNat + state.interval.toNat ≤
        (state.timers name).key.toNat

section Specs

variable
    {cpu : Cpu}
    {fuel : Nat}
    {state : State}
    {armed : List Name}
    {name : Name}

theorem resetClock_eq
    {interval : BitVec 64}
    (inside : interval.toNat ≤ 5000) :
    resetClock cpu interval state =
      .ok { state with interval := interval, setAfter := state.reads } := by
  have slow := cpu.slow
  have product :
      interval.toNat * cpu.frequency.toNat ≤ 5000 * cpu.frequency.toNat :=
    Nat.mul_le_mul_right _ inside
  have bound : interval * cpu.frequency / 1000 ≤ 0x7fffffff := by
    rw [BitVec.le_def, BitVec.toNat_udiv, BitVec.toNat_mul]
    change _ / 1000 ≤ 0x7fffffff
    rw [Nat.mod_eq_of_lt (by omega)]
    omega
  unfold resetClock
  rw [if_pos bound]

theorem Holds.nodup (holds : Holds cpu state armed) : armed.Nodup := by
  rcases holds.tree with ⟨tree, represents⟩
  have nodup := represents.members.nodup_iff.mp represents.nodup
  exact List.Nodup.of_map cpu.node nodup

theorem length_le_two
    {names : List Name}
    (nodup : names.Nodup) :
    names.length ≤ 2 := by
  have inside : names ⊆ [.hello, .sched] := by
    intro name _
    cases name <;> simp
  exact (nodup.subperm inside).length_le

/-- The first node of the tree is that of a timer with the least key. -/
theorem Holds.first
    (holds : Holds cpu state armed)
    (enough : 2 < fuel) :
    (armed = [] ∧ rbFirst fuel state.nodes = .ok 0) ∨
      ∃ name ∈ armed,
        rbFirst fuel state.nodes = .ok (cpu.node name) ∧
          ∀ other ∈ armed,
            (state.timers name).key.toNat ≤
              (state.timers other).key.toNat := by
  rcases holds.tree with ⟨tree, represents⟩
  have depth := represents.depth_le
  have length := length_le_two holds.nodup
  dsimp only at depth
  rw [List.length_map] at depth
  have first :=
    rbFirst_spec represents.whole
      (show tree.depth < fuel from (depth.trans length).trans_lt enough)
  have members := represents.members
  have sorted := represents.sorted
  dsimp only at first members
  cases names : tree.names with
  | nil =>
      rw [names] at first members
      left
      exact ⟨List.map_eq_nil_iff.mp members.nil_eq.symm, first⟩
  | cons node others =>
      rw [names] at first members sorted
      have member := members.mem_iff.mp List.mem_cons_self
      rcases List.mem_map.mp member with ⟨name, inside, rfl⟩
      refine Or.inr ⟨name, inside, first, ?_⟩
      intro other isArmed
      have there :=
        members.mem_iff.mpr (List.mem_map_of_mem (f := cpu.node) isArmed)
      rcases List.mem_cons.mp there with same | later
      · rw [node_injective cpu same]
      · have before := (List.pairwise_cons.mp sorted).1 _ later
        rw [timerCmp_iff holds.small, nameAt_node, nameAt_node] at before
        omega

theorem timerSetClock_spec
    (holds : Holds cpu state armed)
    (enough : 2 < fuel) :
    ∃ target,
      timerSetClock cpu fuel state = .ok target ∧
        target.nodes = state.nodes ∧ target.timers = state.timers ∧
        state.reads ≤ target.reads ∧ Alarmed cpu target armed := by
  unfold timerSetClock
  rcases holds.first enough with ⟨rfl, called⟩ | ⟨name, inside, called, least⟩
  · rw [called]
    refine ⟨_, resetClock_eq (by decide), rfl, rfl, le_rfl, ?_⟩
    exact Or.inl (show (10 : BitVec 64).toNat ≤ 10 by decide)
  · have isNode := (cpu.isNode name).1
    have near := holds.near name inside state.reads le_rfl
    rw [called]
    change
      ∃ target,
        (if cpu.node name = 0 then _ else _) = Except.ok target ∧ _
    rw [if_neg isNode]
    rw [nameAt_node]
    split_ifs with expired
    · refine ⟨_, resetClock_eq (by decide), rfl, rfl, Nat.le_succ _, ?_⟩
      exact Or.inl (show (0 : BitVec 64).toNat ≤ 10 by decide)
    · rw [BitVec.le_def] at expired
      have interval :
          ((state.timers name).key - cpu.times state.reads).toNat =
            (state.timers name).key.toNat -
              (cpu.times state.reads).toNat := by
        apply BitVec.toNat_sub_of_le
        rw [BitVec.le_def]
        omega
      refine ⟨_, resetClock_eq (by omega), rfl, rfl, Nat.le_succ _,
        Or.inr ?_⟩
      intro other isArmed reading before
      have order := cpu.monotone (Nat.le_of_lt_succ before)
      have atLeast := least other isArmed
      rw [BitVec.le_def] at order
      dsimp only
      rw [interval]
      omega

/-- The tree is as before for a comparison which agrees on its nodes. -/
theorem represents_congr
    {nodes : Memory}
    {timers others : Name → Timer}
    {tree : RedBlack.Tree Pointer}
    (represents :
      Represents (timerCmp cpu timers) ⟨nodes, armed.map cpu.node⟩ tree)
    (same : ∀ name ∈ armed, (others name).key = (timers name).key) :
    Represents (timerCmp cpu others) ⟨nodes, armed.map cpu.node⟩ tree := by
  refine { represents with sorted := ?_ }
  apply represents.sorted.imp_of_mem
  intro first second member alsoMember before
  rcases List.mem_map.mp (represents.members.mem_iff.mp member) with
    ⟨name, inside, rfl⟩
  rcases List.mem_map.mp (represents.members.mem_iff.mp alsoMember) with
    ⟨other, alsoInside, rfl⟩
  unfold timerCmp at before ⊢
  simp only [nameAt_node] at before ⊢
  rw [same name inside, same other alsoInside]
  exact before

/-- A timer which is not in the tree is put into it. -/
theorem setCpuTimer_spec
    (holds : Holds cpu state armed)
    (enough : 2 < fuel)
    (absent : name ∉ armed)
    (elapse :
      (state.timers name).elapse = 5 ∨ (state.timers name).elapse = 5000) :
    ∃ target,
      setCpuTimer cpu fuel name state = .ok target ∧
        Holds cpu target (name :: armed) ∧
        Alarmed cpu target (name :: armed) ∧
        (target.timers name).triggered = false ∧
        (target.timers name).elapse = (state.timers name).elapse ∧
        ∀ other, other ≠ name → target.timers other = state.timers other := by
  have bounded := cpu.bounded state.reads
  unfold setCpuTimer getTimestampMs State.setTimer
  dsimp only
  generalize isKey :
    cpu.times state.reads + BitVec.ofInt 64 (state.timers name).elapse =
      key
  have keyNumber :
      key.toNat ≤ (cpu.times state.reads).toNat + 5000 := by
    rw [← isKey, BitVec.toNat_add]
    rcases elapse with short | long
    · rw [short]
      change (_ + 5) % _ ≤ _
      omega
    · rw [long]
      change (_ + 5000) % _ ≤ _
      omega
  generalize isTimers :
    Function.update state.timers name
        { state.timers name with triggered := false, key := key } =
      timers
  have self :
      timers name =
        { state.timers name with triggered := false, key := key } := by
    rw [← isTimers, Function.update_self]
  have others :
      ∀ other, other ≠ name → timers other = state.timers other := by
    intro other different
    rw [← isTimers, Function.update_of_ne different]
  have small : ∀ other, (timers other).key.toNat < 2 ^ 63 := by
    intro other
    by_cases same : other = name
    · rw [same, self]
      dsimp only
      omega
    · rw [others other same]
      exact holds.small other
  rcases holds.tree with ⟨tree, before⟩
  have represents : Represents (timerCmp cpu timers) _ tree :=
    represents_congr before fun other inside => by
      rw [others other]
      rintro rfl
      exact absent inside
  have fresh : cpu.node name ∉ armed.map cpu.node := by
    intro member
    rcases List.mem_map.mp member with ⟨other, inside, same⟩
    exact absent (node_injective cpu same ▸ inside)
  have inserted :=
    represents.insert (timerCmp_trans small) ⟨cpu.isNode name, fresh⟩ fuel
  have length := length_le_two holds.nodup
  dsimp only at inserted
  cases called :
      rbInsert fuel (timerCmp cpu timers) (cpu.node name) state.nodes with
  | error fault =>
      rw [called] at inserted
      have short := inserted.2
      rw [List.length_map] at short
      omega
  | ok pair =>
      rcases pair with ⟨result, nodes⟩
      rw [called] at inserted
      rcases inserted with ⟨-, ⟨other, member, equal⟩, -⟩ |
        ⟨rfl, -, grown, represents⟩
      · exact absurd (eq_of_equal small equal ▸ member) fresh
      · have held :
            Holds cpu
              { state with
                nodes := nodes
                timers := timers
                reads := state.reads + 1 }
              (name :: armed) := by
          refine ⟨⟨grown, represents⟩, small, ?_⟩
          intro other inside reading later
          by_cases same : other = name
          · have order := cpu.monotone (Nat.le_of_succ_le later)
            rw [BitVec.le_def] at order
            dsimp only
            rw [same, self]
            dsimp only
            omega
          · have isArmed := List.mem_of_ne_of_mem same inside
            dsimp only
            rw [others other same]
            exact holds.near other isArmed reading
              (Nat.le_of_succ_le later)
        rcases timerSetClock_spec held enough with
          ⟨target, ran, sameNodes, sameTimers, reads, alarmed⟩
        refine ⟨target, ran, ⟨⟨grown, ?_⟩, ?_, ?_⟩, alarmed, ?_, ?_, ?_⟩
        · rw [sameNodes, sameTimers]
          exact represents
        · rw [sameTimers]
          exact small
        · intro other inside reading later
          rw [sameTimers]
          exact held.near other inside reading (le_trans reads later)
        · rw [sameTimers]
          exact congrArg Timer.triggered self
        · rw [sameTimers]
          have elapse := congrArg Timer.elapse self
          exact elapse
        · intro other different
          rw [sameTimers]
          exact others other different

/-- A timer is taken out of the tree. -/
theorem cancelCpuTimer_spec
    (holds : Holds cpu state armed)
    (enough : 2 < fuel)
    (inside : name ∈ armed)
    (untriggered : (state.timers name).triggered = false) :
    ∃ target,
      cancelCpuTimer cpu fuel name state = .ok target ∧
        Holds cpu target (armed.erase name) ∧
        Alarmed cpu target (armed.erase name) ∧
        target.timers = state.timers := by
  rcases holds.tree with ⟨tree, represents⟩
  have erased :=
    represents.erase
      (show Allowed _ (.erase (cpu.node name)) from
        List.mem_map_of_mem inside) fuel
  have length := length_le_two holds.nodup
  have same :
      (armed.map cpu.node).erase (cpu.node name) =
        (armed.erase name).map cpu.node :=
    (List.map_erase (node_injective cpu) armed).symm
  unfold cancelCpuTimer
  rw [untriggered]
  dsimp only at erased
  rw [same] at erased
  cases called : rbErase fuel (cpu.node name) state.nodes with
  | error fault =>
      rw [called] at erased
      have short := erased.2
      rw [List.length_map] at short
      omega
  | ok nodes =>
      rw [called] at erased
      rcases erased with ⟨shrunk, represents⟩
      have held :
          Holds cpu { state with nodes := nodes } (armed.erase name) :=
        ⟨⟨shrunk, represents⟩, holds.small,
          fun other isArmed reading later =>
            holds.near other (List.mem_of_mem_erase isArmed) reading later⟩
      rcases timerSetClock_spec held enough with
        ⟨target, ran, sameNodes, sameTimers, reads, alarmed⟩
      refine ⟨target, ran, ⟨⟨shrunk, ?_⟩, ?_, ?_⟩, alarmed, sameTimers⟩
      · rw [sameNodes, sameTimers]
        exact represents
      · rw [sameTimers]
        exact holds.small
      · intro other isArmed reading later
        rw [sameTimers]
        exact held.near other isArmed reading (le_trans reads later)

end Specs

/-! ## The invariant -/

/-- The timers in the tree are those which are not triggered. -/
structure Good
    (cpu : Cpu)
    (state : State)
    (armed : List Name) : Prop where
  holds : Holds cpu state armed
  alarmed : Alarmed cpu state armed
  flags : ∀ name, name ∈ armed ↔ (state.timers name).triggered = false
  hello : (state.timers .hello).elapse = 5000
  sched : (state.timers .sched).elapse = 5

section Invariant

variable
    {cpu : Cpu}
    {fuel : Nat}
    {state : State}
    {armed : List Name}
    {name : Name}

theorem Holds.congr
    (holds : Holds cpu state armed)
    {timers : Name → Timer}
    (keys : ∀ name, (timers name).key = (state.timers name).key) :
    Holds cpu { state with timers := timers } armed := by
  rcases holds.tree with ⟨tree, represents⟩
  refine ⟨⟨tree, represents_congr represents fun name _ => keys name⟩, ?_,
    ?_⟩
  · intro name
    dsimp only
    rw [keys]
    exact holds.small name
  · intro name inside reading later
    dsimp only
    rw [keys]
    exact holds.near name inside reading later

/-- What is done to a timer beside its key does not matter for the tree. -/
theorem good_setTimer
    (holds : Holds cpu state armed)
    (alarmed : Alarmed cpu state armed)
    (flags :
      ∀ other, other ≠ name →
        (other ∈ armed ↔ (state.timers other).triggered = false))
    (hello : (state.timers .hello).elapse = 5000)
    (sched : (state.timers .sched).elapse = 5)
    {timer : Timer}
    (key : timer.key = (state.timers name).key)
    (elapse : timer.elapse = (state.timers name).elapse)
    (flag : name ∈ armed ↔ timer.triggered = false) :
    Good cpu (state.setTimer name timer) armed := by
  have cases :
      ∀ other,
        (state.setTimer name timer).timers other =
          if other = name then timer else state.timers other := by
    intro other
    unfold State.setTimer
    exact Function.update_apply ..
  have keys :
      ∀ other,
        ((state.setTimer name timer).timers other).key =
          (state.timers other).key := by
    intro other
    rw [cases]
    split_ifs with same
    · rw [key, same]
    · rfl
  have elapses :
      ∀ other,
        ((state.setTimer name timer).timers other).elapse =
          (state.timers other).elapse := by
    intro other
    rw [cases]
    split_ifs with same
    · rw [elapse, same]
    · rfl
  refine ⟨holds.congr keys, ?_, ?_, (elapses .hello).trans hello,
    (elapses .sched).trans sched⟩
  · rcases alarmed with soon | before
    · exact Or.inl soon
    · refine Or.inr ?_
      intro other isArmed reading early
      rw [keys]
      exact before other isArmed reading early
  · intro other
    rw [cases]
    split_ifs with same
    · rw [same]
      exact flag
    · exact flags other same

theorem Good.setData
    (good : Good cpu state armed)
    (data : BitVec 64) :
    Good cpu
      (state.setTimer name { state.timers name with data := data }) armed :=
  good_setTimer good.holds good.alarmed (fun other _ => good.flags other)
    good.hello good.sched rfl rfl (good.flags name)

/-- A timer is set which is not in the tree. -/
theorem good_setCpuTimer
    (holds : Holds cpu state armed)
    (enough : 2 < fuel)
    (absent : name ∉ armed)
    (flags :
      ∀ other, other ≠ name →
        (other ∈ armed ↔ (state.timers other).triggered = false))
    (hello : (state.timers .hello).elapse = 5000)
    (sched : (state.timers .sched).elapse = 5) :
    ∃ target,
      setCpuTimer cpu fuel name state = .ok target ∧
        Good cpu target (name :: armed) := by
  have elapse :
      (state.timers name).elapse = 5 ∨ (state.timers name).elapse = 5000 := by
    cases name with
    | hello => exact Or.inr hello
    | sched => exact Or.inl sched
  rcases setCpuTimer_spec holds enough absent elapse with
    ⟨target, ran, held, alarmed, untriggered, same, others⟩
  have elapses :
      ∀ other,
        (target.timers other).elapse = (state.timers other).elapse := by
    intro other
    by_cases isName : other = name
    · rw [isName, same]
    · rw [others other isName]
  refine ⟨target, ran, held, alarmed, ?_, (elapses _).trans hello,
    (elapses _).trans sched⟩
  intro other
  by_cases isName : other = name
  · rw [isName, untriggered]
    exact iff_of_true List.mem_cons_self rfl
  · rw [List.mem_cons, or_iff_right isName, others other isName]
    exact flags other isName

theorem updateThisProc_good
    (good : Good cpu state armed)
    (enough : 2 < fuel) :
    ∃ target more,
      updateThisProc cpu fuel state = .ok target ∧ Good cpu target more := by
  unfold updateThisProc
  cases triggered : (state.timers .sched).triggered with
  | true =>
      have absent : Name.sched ∉ armed := by
        rw [good.flags, triggered]
        exact Bool.noConfusion
      rcases good_setCpuTimer good.holds enough absent
        (fun other _ => good.flags other) good.hello good.sched with
        ⟨target, ran, after⟩
      exact ⟨target, _, ran, after⟩
  | false =>
      have inside := (good.flags .sched).mpr triggered
      rcases cancelCpuTimer_spec good.holds enough inside triggered with
        ⟨middle, cancelled, held, -, same⟩
      rcases
        good_setCpuTimer held enough good.holds.nodup.not_mem_erase
          (fun other different => by
            rw [List.mem_erase_of_ne different, same]
            exact good.flags other)
          (same ▸ good.hello) (same ▸ good.sched) with
        ⟨target, ran, after⟩
      refine ⟨target, _, ?_, after⟩
      change (cancelCpuTimer cpu fuel .sched state >>= _) = _
      rw [cancelled]
      exact ran

theorem sched_good
    (good : Good cpu state armed)
    (enough : 2 < fuel)
    (killed : Bool)
    (newState : Sched.ProcState) :
    ∃ target more,
      Timers.sched cpu fuel killed newState state = .ok target ∧
        Good cpu target more := by
  unfold Timers.sched
  split_ifs
  · exact ⟨state, armed, rfl, good⟩
  · exact updateThisProc_good good enough

/-- A handler is called for a timer which has been taken out of the tree. -/
theorem handle_good
    (good : Good cpu state armed)
    (enough : 2 < fuel)
    (absent : name ∉ armed)
    (killed : Bool) :
    ∃ target more,
      handle cpu fuel killed name state = .ok target ∧
        Good cpu target more := by
  cases name with
  | hello =>
      have changed :
          Good cpu
            (state.setTimer .hello
              { state.timers .hello with
                data := (state.timers .hello).data + 1 })
            armed :=
        good.setData _
      rcases good_setCpuTimer changed.holds enough absent
        (fun other _ => changed.flags other) changed.hello
        changed.sched with ⟨target, ran, after⟩
      exact ⟨target, _, ran, after⟩
  | sched =>
      have changed :
          Good cpu
            (state.setTimer .sched { state.timers .sched with data := 0 })
            armed :=
        good.setData _
      exact sched_good changed enough killed .runnable

/-- A round ends the loop when no timer in the tree has expired. -/
theorem clockRound_good
    (good : Good cpu state armed)
    (enough : 2 < fuel)
    (killed : Bool) :
    ∃ again target more,
      clockRound cpu fuel killed state = .ok (again, target) ∧
        Good cpu target more ∧
        (again = false →
          target.timers = state.timers ∧
            ∀ name ∈ armed,
              (cpu.times state.reads).toNat <
                (state.timers name).key.toNat) := by
  unfold clockRound
  rcases good.holds.first enough with
    ⟨rfl, called⟩ | ⟨name, inside, called, least⟩
  · rw [called]
    exact ⟨false, state, [], rfl, good, fun _ =>
      ⟨rfl, fun _ member => absurd member List.not_mem_nil⟩⟩
  · rw [called]
    change
      ∃ again target more,
        (if cpu.node name = 0 then _ else _) = Except.ok (again, target) ∧ _
    rw [if_neg (cpu.isNode name).1]
    dsimp only
    rw [nameAt_node]
    have read :
        Good cpu { state with reads := state.reads + 1 } armed :=
      ⟨⟨good.holds.tree, good.holds.small,
          fun other isArmed reading later =>
            good.holds.near other isArmed reading
              (Nat.le_of_succ_le later)⟩,
        good.alarmed, good.flags, good.hello, good.sched⟩
    have untriggered := (good.flags name).mp inside
    split_ifs with early
    · refine ⟨false, _, armed, rfl, read, fun _ => ⟨rfl, ?_⟩⟩
      intro other isArmed
      exact Nat.lt_of_lt_of_le (BitVec.lt_def.mp early)
        (least other isArmed)
    · rcases cancelCpuTimer_spec read.holds enough inside untriggered with
        ⟨middle, cancelled, held, alarmed, same⟩
      have absent := read.holds.nodup.not_mem_erase (a := name)
      have taken :
          Good cpu
            (middle.setTimer name
              { middle.timers name with triggered := true })
            (armed.erase name) := by
        apply good_setTimer held alarmed
        · intro other different
          rw [List.mem_erase_of_ne different, same]
          exact read.flags other
        · rw [same]
          exact read.hello
        · rw [same]
          exact read.sched
        · rfl
        · rfl
        · exact iff_of_false absent Bool.noConfusion
      rcases handle_good taken enough absent killed with
        ⟨target, more, handled, after⟩
      refine ⟨true, target, more, ?_, after, Bool.noConfusion⟩
      rw [cancelled]
      change (handle cpu fuel killed name _ >>= _) = _
      rw [handled]
      rfl

theorem step_good
    (good : Good cpu state armed)
    (enough : 2 < fuel)
    (label : Label) :
    ∃ target more,
      step cpu fuel state label = .ok target ∧ Good cpu target more := by
  cases label with
  | sched killed newState => exact sched_good good enough killed newState
  | interrupt =>
      refine ⟨_, armed, resetClock_eq (by decide), ⟨?_, good.holds.small,
        good.holds.near⟩, Or.inl ?_, good.flags, good.hello, good.sched⟩
      · exact good.holds.tree
      · exact show (10 : BitVec 64).toNat ≤ 10 by decide
  | round killed =>
      rcases clockRound_good good enough killed with
        ⟨again, target, more, ran, after, -⟩
      refine ⟨target, more, ?_, after⟩
      change (clockRound cpu fuel killed state >>= _) = _
      rw [ran]
      rfl

theorem setCpuOn_good
    (initial : Initial state)
    (enough : 2 < fuel) :
    ∃ target,
      setCpuOn cpu fuel state = .ok target ∧ Good cpu target [.hello] := by
  rcases initial.sched with ⟨data, isSched⟩
  have reset : resetClock cpu 10 state = .ok _ := resetClock_eq (by decide)
  generalize isClocked :
    ({ state with interval := 10, setAfter := state.reads } : State) =
      clocked at reset
  have nodes : clocked.nodes = state.nodes := by
    rw [← isClocked]
  have timers : clocked.timers = state.timers := by
    rw [← isClocked]
  generalize isSet :
    clocked.setTimer .hello
      { clocked.timers .hello with elapse := 5000 } = middle
  have hello : middle.timers .hello = ⟨false, 5000, 0, 0⟩ := by
    rw [← isSet]
    unfold State.setTimer
    dsimp only
    rw [Function.update_self, timers, initial.hello]
  have sched : middle.timers .sched = ⟨true, 5, 0, data⟩ := by
    rw [← isSet]
    unfold State.setTimer
    dsimp only
    rw [Function.update_of_ne (by decide), timers, isSched]
  have root : middle.nodes.root = 0 := by
    rw [← isSet]
    exact (congrArg Memory.root nodes).trans initial.empty
  have held : Holds cpu middle [] := by
    refine ⟨⟨.nil, ⟨root, trivial⟩, rfl, ⟨0, .nil⟩, List.nodup_nil, .nil,
      .refl _⟩, ?_, fun _ member => absurd member List.not_mem_nil⟩
    intro name
    cases name with
    | hello =>
        rw [hello]
        decide
    | sched =>
        rw [sched]
        exact show (0 : BitVec 64).toNat < 2 ^ 63 by decide
  rcases good_setCpuTimer held enough (List.not_mem_nil (a := Name.hello))
    (fun other different => by
      cases other with
      | hello => exact absurd rfl different
      | sched =>
          rw [sched]
          exact iff_of_false List.not_mem_nil Bool.noConfusion)
    (congrArg Timer.elapse hello) (congrArg Timer.elapse sched) with
    ⟨target, ran, good⟩
  refine ⟨target, ?_, good⟩
  unfold setCpuOn
  rw [reset]
  change setCpuTimer cpu fuel .hello (clocked.setTimer .hello _) = _
  rw [isSet]
  exact ran

end Invariant

/-! ## The system -/

/-- What holds of the timers of a CPU. -/
structure Sound (cpu : Cpu) (fuel : Nat) (state : State) : Prop where
  /-- The tree holds the timers which are not triggered, each of them once. -/
  armed :
    ∃ tree, ∃ armed : List Name,
      Represents (timerCmp cpu state.timers)
          ⟨state.nodes, armed.map cpu.node⟩ tree ∧
        armed.Nodup ∧
        ∀ name, name ∈ armed ↔ (state.timers name).triggered = false
  /-- No assertion fails, and no timer is put into the tree twice. -/
  safe : ∀ label, ∃ target, step cpu fuel state label = .ok target
  /-- The loop of `timer_clock_handler` ends when no timer has expired. -/
  ends :
    ∀ killed target,
      clockRound cpu fuel killed state = .ok (false, target) →
        ∀ name, (target.timers name).triggered = false →
          (cpu.times state.reads).toNat < (target.timers name).key.toNat
  /-- The clock has been set for the first timer, or for 10 ms. -/
  alarmed :
    state.interval.toNat ≤ 10 ∨
      ∀ name, (state.timers name).triggered = false →
        ∀ reading < state.setAfter,
          (cpu.times reading).toNat + state.interval.toNat ≤
            (state.timers name).key.toNat

/--
After `set_cpu_on`, a timer is in the tree exactly while it is not triggered,
in every run of interrupts, rounds of the handler's loop and calls of `sched`.
-/
theorem timers_armed
    (cpu : Cpu)
    {fuel : Nat}
    (enough : 2 < fuel)
    {initial start finish : State}
    {labels : List Label}
    (isInitial : Initial initial)
    (on : setCpuOn cpu fuel initial = .ok start)
    (run :
      Run (Takes (step cpu fuel)) (fun _ _ => True) start labels finish) :
    Sound cpu fuel finish := by
  have invariant : ∃ armed, Good cpu finish armed := by
    let holds : State → Prop := fun state => ∃ armed, Good cpu state armed
    change holds finish
    refine run.invariant ?_ ?_
    · rcases setCpuOn_good isInitial enough with ⟨target, ran, good⟩
      rw [on] at ran
      cases ran
      exact ⟨_, good⟩
    · rintro source label target ⟨armed, good⟩ _ taken
      rcases step_good good enough label with ⟨after, more, ran, kept⟩
      rw [show step cpu fuel source label = .ok target from taken] at ran
      cases ran
      exact ⟨more, kept⟩
  rcases invariant with ⟨armed, good⟩
  refine ⟨?_, ?_, ?_, ?_⟩
  · rcases good.holds.tree with ⟨tree, represents⟩
    exact ⟨tree, armed, represents, good.holds.nodup, good.flags⟩
  · intro label
    rcases step_good good enough label with ⟨target, _, ran, _⟩
    exact ⟨target, ran⟩
  · intro killed target ran name untriggered
    rcases clockRound_good good enough killed with
      ⟨again, after, more, called, -, ended⟩
    rw [ran] at called
    cases called
    rcases ended rfl with ⟨same, later⟩
    rw [same] at untriggered ⊢
    exact later name ((good.flags name).mpr untriggered)
  · rcases good.alarmed with soon | before
    · exact Or.inl soon
    · refine Or.inr ?_
      intro name untriggered
      exact before name ((good.flags name).mpr untriggered)

/-- A CPU whose clock reads 100 eight times, and then 7000. -/
def slowCpu : Cpu where
  node name := if name = .hello then 0x1000 else 0x2000
  isNode name := by cases name <;> exact ⟨by decide, by decide⟩
  distinct := by decide
  times reading := if reading < 8 then 100 else 7000
  monotone := by
    intro first second order
    split_ifs
    · decide
    · decide
    · omega
    · decide
  bounded := by
    intro reading
    split_ifs <;> decide
  frequency := 62500000
  slow := by decide

def beforeOn : State where
  nodes := { parentColor := fun _ => 0, child := fun _ _ => 0, root := 0 }
  timers name :=
    if name = .hello then ⟨false, 0, 0, 0⟩ else ⟨true, 5, 0, 0⟩
  reads := 0
  interval := 0
  setAfter := 0

/-- The first process runs for long, and both timers expire. -/
def bothExpire : List Label :=
  [.sched false .runnable, .interrupt, .round false, .sched true .sleeping,
    .sched false .sleeping, .interrupt, .round false, .round false,
    .round false]

theorem timers_armed_bothExpire :
    Initial beforeOn ∧
      ∃ start finish,
        setCpuOn slowCpu 3 beforeOn = .ok start ∧
          Run (Takes (step slowCpu 3)) (fun _ _ => True) start bothExpire
            finish ∧
          (finish.timers .hello).data = 1 ∧
          (finish.timers .sched).key = 7005 ∧
          Sound slowCpu 3 finish := by
  have isInitial : Initial beforeOn := ⟨rfl, rfl, 0, rfl⟩
  have switched :
      (setCpuOn slowCpu 3 beforeOn).toOption.isSome = true := by
    decide +kernel
  cases on : setCpuOn slowCpu 3 beforeOn with
  | error halt =>
      rw [on] at switched
      cases switched
  | ok start =>
      have computed :
          ((setCpuOn slowCpu 3 beforeOn).toOption.bind fun start =>
              (executeChecked (step slowCpu 3) (fun _ _ => true) start
                bothExpire).map fun finish =>
                  ((finish.timers .hello).data,
                    (finish.timers .sched).key)) =
            some (1, 7005) := by
        decide +kernel
      rw [on] at computed
      rcases Option.map_eq_some_iff.mp computed with
        ⟨finish, executed, values⟩
      have run :
          Run (Takes (step slowCpu 3)) (fun _ _ => True) start bothExpire
            finish :=
        Run.of_executeChecked (fun _ _ _ => trivial) executed
      exact ⟨isInitial, start, finish, rfl, run,
        congrArg Prod.fst values, congrArg Prod.snd values,
        timers_armed slowCpu (by decide) isInitial on run⟩

end FudanOS.Kernel.Timers
