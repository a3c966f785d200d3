import FudanOS.Kernel.ProcMemory
import Mathlib.Data.Multiset.Basic

/-!
# The places of pages

Every page has at most one place: the queue, an entry of a table, the root of
a page directory, a kernel stack, or a variable of the function which is
running.  The functions of the kernel move pages between these places, and
what they do not hold themselves stays where it is.  `Carries` states this for
a function, with the rules for the constructs of its body.

In `fork`, the page which `init_proc` has put into `child->pgdir` has no place
any more once `child->pgdir` is overwritten.
-/

namespace FudanOS.Kernel.ProcMemory

open FudanOS.Aarch64.Mmu
open FudanOS.Library.Programs
open FudanOS.Library.Runs

/-! ## Places -/

/-- The pages which are free or in places outside of the tables. -/
def Memory.total (memory : Memory) (others : Multiset Nat) : Multiset Nat :=
  (memory.pages : Multiset Nat) + others

theorem entries_store
    (memory : Memory)
    (pt index first second : Nat)
    (entry : Entry) :
    (memory.store pt index entry).entries first second =
      if first = pt ∧ second = index then
        entry
      else
        memory.entries first second := by
  unfold Memory.store
  dsimp only
  by_cases sameTable : first = pt
  · subst sameTable
    rw [Function.update_self]
    by_cases sameIndex : second = index
    · subst sameIndex
      rw [Function.update_self, if_pos ⟨rfl, rfl⟩]
    · rw [Function.update_of_ne sameIndex, if_neg fun both => sameIndex both.2]
  · rw [Function.update_of_ne sameTable, if_neg fun both => sameTable both.1]

/--
No page has two places, where `others` are the pages which have a place
outside of the queue and of the tables.  The entries in `holes` do not count.
-/
structure Apart
    (holes : List (Nat × Nat))
    (memory : Memory)
    (others : Multiset Nat) : Prop where
  nodup : (memory.total others).Nodup
  apart :
    ∀ pt index page, (pt, index) ∉ holes →
      memory.entries pt index = .page page → page ∉ memory.total others
  unique :
    ∀ pt index second other page, (pt, index) ∉ holes →
      (second, other) ∉ holes → memory.entries pt index = .page page →
        memory.entries second other = .page page →
          pt = second ∧ index = other

namespace Apart

variable
    {holes : List (Nat × Nat)}
    {memory target : Memory}
    {others rest : Multiset Nat}

/-- Pages may lose their places, and move between the queue and `others`. -/
theorem shrink
    {left : List (Nat × Nat)}
    (apart : Apart holes memory others)
    (entries :
      ∀ pt index page, (pt, index) ∉ left →
        target.entries pt index = .page page →
          (pt, index) ∉ holes ∧ memory.entries pt index = .page page)
    (total : target.total rest ≤ memory.total others) :
    Apart left target rest := by
  constructor
  · exact Multiset.nodup_of_le total apart.nodup
  · intro pt index page outside found member
    rcases entries pt index page outside found with ⟨inside, before⟩
    exact apart.apart pt index page inside before
      (Multiset.mem_of_le total member)
  · intro pt index second other page outside otherOutside found otherFound
    rcases entries pt index page outside found with ⟨inside, before⟩
    rcases entries second other page otherOutside otherFound with
      ⟨otherInside, otherBefore⟩
    exact apart.unique pt index second other page inside otherInside before
      otherBefore

/-- A page is taken out of an entry, which then does not count. -/
theorem take
    {pt index page : Nat}
    (apart : Apart holes memory others)
    (outside : (pt, index) ∉ holes)
    (found : memory.entries pt index = .page page) :
    Apart ((pt, index) :: holes) memory ({page} + others) := by
  have total :
      memory.total ({page} + others) = page ::ₘ memory.total others := by
    unfold Memory.total
    rw [← Multiset.singleton_add, add_left_comm]
  constructor
  · rw [total, Multiset.nodup_cons]
    exact ⟨apart.apart pt index page outside found, apart.nodup⟩
  · intro other second number notHole otherFound
    rw [List.mem_cons, not_or] at notHole
    rw [total, Multiset.mem_cons, not_or]
    constructor
    · rintro rfl
      rcases apart.unique other second pt index number notHole.2 outside
        otherFound found with ⟨rfl, rfl⟩
      exact notHole.1 rfl
    · exact apart.apart other second number notHole.2 otherFound
  · intro first second third fourth number notHole otherNot
    rw [List.mem_cons, not_or] at notHole otherNot
    exact apart.unique first second third fourth number notHole.2 otherNot.2

/-- A page from outside is put into an entry. -/
theorem put
    {pt index page : Nat}
    (apart : Apart holes memory ({page} + others)) :
    Apart holes (memory.store pt index (.page page)) others := by
  have total :
      memory.total ({page} + others) = page ::ₘ memory.total others := by
    unfold Memory.total
    rw [← Multiset.singleton_add, add_left_comm]
  have nodup := apart.nodup
  rw [total, Multiset.nodup_cons] at nodup
  have entry :
      ∀ first second number,
        (memory.store pt index (.page page)).entries first second =
            .page number →
          (first = pt ∧ second = index ∧ number = page) ∨
            memory.entries first second = .page number := by
    intro first second number found
    rw [entries_store] at found
    by_cases here : first = pt ∧ second = index
    · rw [if_pos here] at found
      exact Or.inl ⟨here.1, here.2, (Entry.page.inj found).symm⟩
    · rw [if_neg here] at found
      exact Or.inr found
  have elsewhere :
      ∀ first second, (first, second) ∉ holes →
        memory.entries first second ≠ .page page := by
    intro first second outside found
    apply apart.apart first second page outside found
    rw [total]
    exact Multiset.mem_cons_self page _
  constructor
  · exact nodup.2
  · intro first second number outside found
    rcases entry first second number found with ⟨_, _, rfl⟩ | before
    · exact nodup.1
    · intro member
      apply apart.apart first second number outside before
      rw [total]
      exact Multiset.mem_cons_of_mem member
  · intro first second third fourth number outside otherOutside found
      otherFound
    rcases entry first second number found with ⟨rfl, rfl, rfl⟩ | before
    · rcases entry third fourth number otherFound with
        ⟨rfl, rfl, _⟩ | otherBefore
      · exact ⟨rfl, rfl⟩
      · exact absurd otherBefore (elsewhere third fourth otherOutside)
    · rcases entry third fourth number otherFound with
        ⟨_, _, rfl⟩ | otherBefore
      · exact absurd before (elsewhere first second outside)
      · exact apart.unique first second third fourth number outside
          otherOutside before otherBefore

/-- An entry is set to something which is not a page. -/
theorem fill
    {pt index : Nat}
    {entry : Entry}
    (apart : Apart ((pt, index) :: holes) memory others)
    (empty : ∀ page, entry ≠ .page page) :
    Apart holes (memory.store pt index entry) others := by
  refine apart.shrink ?_ ?_
  · intro first second number outside found
    rw [entries_store] at found
    by_cases here : first = pt ∧ second = index
    · rw [if_pos here] at found
      exact absurd found (empty number)
    · rw [if_neg here] at found
      refine ⟨?_, found⟩
      rw [List.mem_cons, not_or, Prod.mk.injEq]
      exact ⟨here, outside⟩
  · exact le_rfl

/-- More entries may be left out of account. -/
theorem weaken
    {pt index : Nat}
    (apart : Apart holes memory others) :
    Apart ((pt, index) :: holes) memory others := by
  refine apart.shrink ?_ ?_
  · intro first second number outside found
    rw [List.mem_cons, not_or] at outside
    exact ⟨outside.2, found⟩
  · exact le_rfl

theorem clear
    {page : Nat}
    (apart : Apart holes memory others) :
    Apart holes (memory.clear page) others := by
  refine apart.shrink ?_ ?_
  · intro first second number outside found
    unfold Memory.clear at found
    dsimp only at found
    by_cases same : first = page
    · subst same
      rw [Function.update_self] at found
      exact nomatch found
    · rw [Function.update_of_ne same] at found
      exact ⟨outside, found⟩
  · exact le_rfl

end Apart

/-! ## Moves of pages -/

/--
The pages `mine` have been given up for the pages `next`, whatever pages the
rest of the system has.
-/
def Moves
    (holes : List (Nat × Nat))
    (mine next : Multiset Nat)
    (start finish : Memory) : Prop :=
  ∀ frame, (∀ hole ∈ holes, hole.1 ∈ frame) →
    Apart holes start (mine + frame) →
      Apart holes finish (next + frame) ∧
        ∀ page ∈ frame, finish.allocatedFor page = start.allocatedFor page

/-- An action gives up the pages `mine` for the pages which `next` names. -/
def Carries
    {Value : Type}
    (holes : List (Nat × Nat))
    (action : Action Value)
    (mine : Multiset Nat)
    (next : Value → Multiset Nat) : Prop :=
  ∀ memory,
    Ensures (fun _ => True) action memory fun value finish =>
      Moves holes mine (next value) memory finish

namespace Moves

variable
    {holes : List (Nat × Nat)}
    {mine next last : Multiset Nat}
    {start middle finish : Memory}

theorem refl : Moves holes mine mine start start := by
  intro frame _ apart
  exact ⟨apart, fun _ _ => rfl⟩

theorem trans
    (first : Moves holes mine next start middle)
    (second : Moves holes next last middle finish) :
    Moves holes mine last start finish := by
  intro frame inside apart
  rcases first frame inside apart with ⟨between, kept⟩
  rcases second frame inside between with ⟨after, keptToo⟩
  refine ⟨after, ?_⟩
  intro page member
  rw [keptToo page member, kept page member]

/-- What is not touched stays. -/
theorem frame
    (moves : Moves holes mine next start finish)
    (kept : Multiset Nat) :
    Moves holes (mine + kept) (next + kept) start finish := by
  intro others inside apart
  rw [add_assoc] at apart ⊢
  have insideToo : ∀ hole ∈ holes, hole.1 ∈ kept + others := by
    intro hole member
    exact Multiset.mem_add.mpr (Or.inr (inside hole member))
  rcases moves (kept + others) insideToo apart with ⟨after, same⟩
  refine ⟨after, ?_⟩
  intro page member
  exact same page (Multiset.mem_add.mpr (Or.inr member))

/-- Pages may be forgotten. -/
theorem forget
    {extra : Multiset Nat}
    (moves : Moves holes mine (next + extra) start finish) :
    Moves holes mine next start finish := by
  intro frame inside apart
  rcases moves frame inside apart with ⟨after, same⟩
  refine ⟨after.shrink ?_ ?_, same⟩
  · intro pt index page outside found
    exact ⟨outside, found⟩
  · unfold Memory.total
    rw [add_right_comm, ← add_assoc _ (next + frame)]
    exact Multiset.le_add_right _ _

/-- What a move says when all entries count. -/
theorem whole
    {frame : Multiset Nat}
    (moves : Moves [] mine next start finish)
    (apart : Apart [] start (mine + frame)) :
    Apart [] finish (next + frame) ∧
      ∀ page ∈ frame,
        finish.allocatedFor page = start.allocatedFor page := by
  apply moves frame _ apart
  intro hole member
  exact absurd member List.not_mem_nil

/-- A change of the entries only. -/
theorem of_apart
    (apart :
      ∀ frame, Apart holes start (mine + frame) →
        Apart holes finish (next + frame))
    (same : finish.allocatedFor = start.allocatedFor) :
    Moves holes mine next start finish := by
  intro frame _ before
  refine ⟨apart frame before, ?_⟩
  intro page _
  rw [same]

end Moves

namespace Carries

variable
    {Value Result Item : Type}
    {holes : List (Nat × Nat)}
    {mine : Multiset Nat}

theorem pure
    {value : Value}
    {next : Value → Multiset Nat}
    (same : mine = next value) :
    Carries holes (Pure.pure value) mine next := by
  intro memory
  rw [ensures_pure, same]
  exact Moves.refl

theorem throw
    {next : Value → Multiset Nat} :
    Carries holes (MonadExcept.throw ()) mine next := by
  intro memory
  exact trivial

theorem throw_bind
    {rest : Value → Action Result}
    {last : Result → Multiset Nat} :
    Carries holes (MonadExcept.throw () >>= rest) mine last := by
  intro memory
  exact trivial

theorem bind
    {action : Action Value}
    {rest : Value → Action Result}
    {next : Value → Multiset Nat}
    {last : Result → Multiset Nat}
    (first : Carries holes action mine next)
    (second : ∀ value, Carries holes (rest value) (next value) last) :
    Carries holes (action >>= rest) mine last := by
  intro memory
  rw [ensures_bind]
  apply (first memory).mono
  intro value middle moves
  apply (second value middle).mono
  intro result finish later
  exact moves.trans later

/-- The memory is read. -/
theorem get
    {rest : Memory → Action Result}
    {last : Result → Multiset Nat}
    (each : ∀ memory, Carries holes (rest memory) mine last) :
    Carries holes (MonadState.get >>= rest) mine last := by
  intro memory
  rw [ensures_bind, ensures_get]
  exact each memory memory

theorem modifies
    {change : Memory → Memory}
    {next : Multiset Nat}
    (moves : ∀ memory, Moves holes mine next memory (change memory)) :
    Carries holes (modify change) mine fun _ => next := by
  intro memory
  rw [ensures_modify]
  exact moves memory

theorem ite
    {condition : Prop}
    [Decidable condition]
    {yes no : Action Value}
    {next : Value → Multiset Nat}
    (whenTrue : Carries holes yes mine next)
    (whenFalse : Carries holes no mine next) :
    Carries holes (if condition then yes else no) mine next := by
  by_cases holds : condition
  · rwa [if_pos holds]
  · rwa [if_neg holds]

theorem foldlM
    {body : Value → Item → Action Value}
    (next : Value → Multiset Nat)
    (each : ∀ value item, Carries holes (body value item) (next value) next)
    (items : List Item)
    (initial : Value) :
    Carries holes (items.foldlM body initial) (next initial) next := by
  induction items generalizing initial with
  | nil => exact Carries.pure rfl
  | cons item rest ih =>
      rw [List.foldlM_cons]
      exact (each initial item).bind ih

/-- Pages which an action does not hold stay. -/
theorem frame
    {action : Action Value}
    {next : Value → Multiset Nat}
    (carries : Carries holes action mine next)
    (kept : Multiset Nat) :
    Carries holes action (mine + kept) fun value => next value + kept := by
  intro memory
  apply (carries memory).mono
  intro value finish moves
  exact moves.frame kept

/-- An action which needs no pages is called beside pages. -/
theorem alongside
    {action : Action Value}
    {next : Value → Multiset Nat}
    (carries : Carries holes action 0 next)
    (kept : Multiset Nat) :
    Carries holes action kept fun value => next value + kept := by
  have framed := carries.frame kept
  rwa [zero_add] at framed

/-- An action which gives up pages is called beside others. -/
theorem giving
    {action : Action Value}
    (carries : Carries holes action mine fun _ => 0)
    (kept : Multiset Nat) :
    Carries holes action (mine + kept) fun _ => kept := by
  have framed := carries.frame kept
  rwa [zero_add] at framed

theorem beside
    {action : Action Value}
    (carries : Carries holes action 0 fun _ => 0)
    (kept : Multiset Nat) :
    Carries holes action kept fun _ => kept := by
  have framed := carries.giving kept
  rwa [zero_add] at framed

end Carries

/-! ## The functions -/

section Functions

variable {holes : List (Nat × Nat)}

theorem carries_kallocPage (proc : Option Nat) :
    Carries holes (kallocPage proc) 0 fun page => {page} := by
  intro memory
  unfold kallocPage
  rw [ensures_bind, ensures_get]
  cases queue : memory.pages with
  | nil => exact trivial
  | cons page rest =>
      dsimp only
      rw [ensures_bind, ensures_set, ensures_pure]
      intro frame inside apart
      have total :
          (rest : Multiset Nat) + ({page} + frame) =
            (memory.pages : Multiset Nat) + (0 + frame) := by
        rw [queue, ← Multiset.cons_coe, ← Multiset.singleton_add, zero_add,
          add_left_comm, add_assoc]
      constructor
      · refine apart.shrink ?_ (le_of_eq total)
        intro pt index number outside found
        exact ⟨outside, found⟩
      · intro other member
        have different : other ≠ page := by
          rintro rfl
          have nodup := apart.nodup
          unfold Memory.total at nodup
          rw [← total, add_left_comm, Multiset.singleton_add,
            Multiset.nodup_cons] at nodup
          exact nodup.1 (Multiset.mem_add.mpr (Or.inr member))
        dsimp only
        rw [Function.update_of_ne different]

/-- A page is given back, whichever entries are left out of account. -/
theorem ensures_kfreePage (page : Nat) (memory : Memory) :
    Ensures (fun _ => True) (kfreePage page) memory fun _ finish =>
      finish.allocatedFor = memory.allocatedFor ∧
        ∀ holes frame, Apart holes memory ({page} + frame) →
          Apart holes finish frame := by
  unfold kfreePage
  rw [ensures_bind, ensures_modify, ensures_bind, ensures_get]
  apply ensures_ite
  · intro _
    rw [ensures_set]
    refine ⟨rfl, ?_⟩
    intro holes frame apart
    refine apart.shrink ?_ (le_of_eq ?_)
    · intro pt index number outside found
      exact ⟨outside, found⟩
    · unfold Memory.total Memory.giveBack Memory.decrement
      dsimp only
      rw [← Multiset.cons_coe, ← Multiset.singleton_add, add_assoc,
        add_left_comm]
  · intro _
    rw [ensures_pure]
    refine ⟨rfl, ?_⟩
    intro holes frame apart
    refine apart.shrink ?_ ?_
    · intro pt index number outside found
      exact ⟨outside, found⟩
    · unfold Memory.total Memory.decrement
      dsimp only
      rw [add_left_comm]
      exact Multiset.le_add_left _ _

theorem carries_kfreePage (page : Nat) :
    Carries holes (kfreePage page) {page} fun _ => 0 := by
  intro memory
  apply (ensures_kfreePage page memory).mono
  rintro _ finish ⟨same, freed⟩
  refine Moves.of_apart ?_ same
  intro frame apart
  rw [zero_add]
  exact freed holes frame apart

theorem carries_store_page (pt index page : Nat) :
    Carries holes (store pt index (.page page)) {page} fun _ => 0 := by
  apply Carries.modifies
  intro memory
  refine Moves.of_apart ?_ rfl
  intro frame apart
  rw [zero_add]
  exact apart.put

theorem carries_store
    {entry : Entry}
    (pt index : Nat)
    (empty : ∀ page, entry ≠ .page page) :
    Carries holes (store pt index entry) 0 fun _ => 0 := by
  apply Carries.modifies
  intro memory
  refine Moves.of_apart ?_ rfl
  intro frame apart
  exact apart.weaken.fill empty

theorem carries_newTable (proc : Nat) :
    Carries holes (newTable proc) 0 fun page => {page} := by
  apply (carries_kallocPage (some proc)).bind
  intro page
  have cleared :
      Carries holes (modify fun memory => memory.clear page) {page}
        fun _ => {page} := by
    apply Carries.modifies
    intro memory
    refine Moves.of_apart ?_ rfl
    intro frame apart
    exact apart.clear
  apply cleared.bind
  intro _
  exact Carries.pure rfl

/-- The page which a page directory has as its root. -/
def Pgdir.root (pgdir : Pgdir) : Multiset Nat :=
  match pgdir.pt with
  | some page => {page}
  | none => 0

theorem carries_initPgdir (proc : Nat) :
    Carries holes (initPgdir proc) 0 Pgdir.root := by
  apply (carries_newTable proc).bind
  intro page
  exact Carries.pure rfl

theorem carries_nextTable (proc pt index : Nat) (alloc : Bool) :
    Carries holes (nextTable proc pt index alloc) 0 fun _ => 0 := by
  apply Carries.get
  intro memory
  cases memory.entries pt index with
  | page table => exact Carries.pure rfl
  | null => exact Carries.throw
  | zero =>
      apply Carries.ite
      · apply (carries_newTable proc).bind
        intro page
        apply (carries_store_page pt index page).bind
        intro _
        exact Carries.pure rfl
      · exact Carries.pure rfl

theorem carries_rootTable (proc : Nat) (pgdir : Pgdir) (alloc : Bool) :
    Carries holes (rootTable proc pgdir alloc) pgdir.root
      fun result => result.2.root := by
  unfold rootTable
  cases found : pgdir.pt with
  | some pt0 => exact Carries.pure rfl
  | none =>
      have nothing : pgdir.root = 0 := by
        unfold Pgdir.root
        rw [found]
      apply Carries.ite
      · rw [nothing]
        apply (carries_newTable proc).bind
        intro page
        exact Carries.pure rfl
      · exact Carries.pure rfl

theorem carries_lastTable (proc pt0 : Nat) (va : Word) (alloc : Bool) :
    Carries holes (lastTable proc pt0 va alloc) 0 fun _ => 0 := by
  apply (carries_nextTable proc pt0 _ alloc).bind
  intro pt1
  cases pt1 with
  | none => exact Carries.pure rfl
  | some pt1 =>
      apply (carries_nextTable proc pt1 _ alloc).bind
      intro pt2
      cases pt2 with
      | none => exact Carries.pure rfl
      | some pt2 => exact carries_nextTable proc pt2 _ alloc

theorem carries_getPte (proc : Nat) (pgdir : Pgdir) (va : Word)
    (alloc : Bool) :
    Carries holes (getPte proc pgdir va alloc) pgdir.root
      fun result => result.2.root := by
  apply (carries_rootTable proc pgdir alloc).bind
  rintro ⟨pt0, pgdir⟩
  cases pt0 with
  | none => exact Carries.pure rfl
  | some pt0 =>
      apply ((carries_lastTable proc pt0 va alloc).beside pgdir.root).bind
      intro pt3
      exact Carries.pure rfl

/--
A table and all tables below it are given back.  While a table below is being
freed, the entry which leads to it is a hole.
-/
theorem carries_freePtPages (levels p : Nat) :
    Carries holes (freePtPages levels p) {p} fun _ => 0 := by
  induction levels generalizing holes p with
  | zero => exact carries_kfreePage p
  | succ levels ih =>
      rw [freePtPages]
      generalize List.range 512 = indices
      refine Carries.bind (Carries.foldlM (fun _ => {p}) ?_ indices ())
        fun _ => carries_kfreePage p
      intro _ i memory
      rw [ensures_bind, ensures_get]
      cases found : memory.entries p i with
      | zero =>
          exact Moves.refl
      | null => exact trivial
      | page nextLevel =>
          dsimp only
          rw [ensures_bind]
          apply (ih nextLevel memory).mono
          intro _ middle below
          unfold store
          rw [ensures_modify]
          intro frame inside apart
          have mine : p ∉ frame := by
            have nodup := apart.nodup
            unfold Memory.total at nodup
            rw [add_left_comm, Multiset.singleton_add,
              Multiset.nodup_cons] at nodup
            intro member
            exact nodup.1 (Multiset.mem_add.mpr (Or.inr member))
          have outside : (p, i) ∉ holes := by
            intro member
            exact mine (inside (p, i) member)
          have covered :
              ∀ hole ∈ (p, i) :: holes, hole.1 ∈ {p} + frame := by
            intro hole member
            rw [Multiset.mem_add, Multiset.mem_singleton]
            rcases List.mem_cons.mp member with rfl | member
            · exact Or.inl rfl
            · exact Or.inr (inside hole member)
          rcases below ({p} + frame) covered (apart.take outside found) with
            ⟨after, kept⟩
          rw [zero_add] at after
          constructor
          · exact after.fill fun _ => Entry.noConfusion
          · intro page member
            exact kept page (Multiset.mem_add.mpr (Or.inr member))

theorem carries_freePgdir (pgdir : Pgdir) :
    Carries holes (freePgdir pgdir) pgdir.root fun _ => 0 := by
  unfold freePgdir Pgdir.root
  cases pgdir.pt with
  | none => exact Carries.pure rfl
  | some pt =>
      dsimp only
      generalize 3 = levels
      exact carries_freePtPages levels pt

theorem carries_userPageAlloc (proc : Nat) :
    Carries holes (userPageAlloc proc) 0
      fun page => page.elim 0 fun number => {number} := by
  apply Carries.get
  intro memory
  apply Carries.ite
  · exact Carries.pure rfl
  · apply (carries_kallocPage (some proc)).bind
    intro page
    exact Carries.pure rfl

theorem carries_mapPage
    (proc : Nat)
    (pgdir : Pgdir)
    (va : Word)
    (page : Nat) :
    Carries holes (mapPage proc pgdir va page) ({page} + pgdir.root)
      Pgdir.root := by
  rw [add_comm]
  apply ((carries_getPte proc pgdir va true).frame {page}).bind
  rintro ⟨pte, pgdir⟩
  cases pte with
  | none => exact Carries.throw
  | some pt =>
      dsimp only
      rw [add_comm]
      exact ((carries_store_page pt _ page).giving pgdir.root).bind
        fun _ => Carries.pure rfl

theorem carries_pgfaultHandler (proc : Nat) (pgdir : Pgdir) (addr : Word) :
    Carries holes (pgfaultHandler proc pgdir addr) pgdir.root
      Pgdir.root := by
  apply (carries_getPte proc pgdir addr true).bind
  rintro ⟨pte, pgdir⟩
  cases pte with
  | none => exact Carries.throw
  | some pt =>
      apply Carries.get
      intro memory
      dsimp only
      cases memory.entries pt (vaPart3 addr).toNat with
      | page _ => exact Carries.pure rfl
      | null => exact Carries.pure rfl
      | zero =>
          apply ((carries_userPageAlloc proc).alongside pgdir.root).bind
          intro page
          cases page with
          | none =>
              have stored :
                  Carries holes (store pt (vaPart3 addr).toNat .null) 0
                    fun _ => 0 :=
                carries_store pt _ fun _ => Entry.noConfusion
              exact (stored.giving pgdir.root).bind fun _ => Carries.pure rfl
          | some page =>
              exact ((carries_store_page pt _ page).giving pgdir.root).bind
                fun _ => Carries.pure rfl

/-- Without `alloc`, the page directory stays as it is. -/
theorem carries_getPte_false (proc : Nat) (pgdir : Pgdir) (va : Word) :
    Carries holes (getPte proc pgdir va false) pgdir.root
      fun _ => pgdir.root := by
  unfold getPte rootTable
  cases pgdir.pt with
  | none => exact Carries.pure rfl
  | some pt0 =>
      dsimp only
      rw [pure_bind]
      apply ((carries_lastTable proc pt0 va false).beside pgdir.root).bind
      intro pt3
      exact Carries.pure rfl

/-- The page of an entry is given back before the entry is cleared. -/
theorem carries_releasePage (proc : Nat) (pgdir : Pgdir) (va : Word) :
    Carries [] (releasePage proc pgdir va) pgdir.root
      fun _ => pgdir.root := by
  apply (carries_getPte_false proc pgdir va).bind
  rintro ⟨pte, _⟩
  cases pte with
  | none => exact Carries.pure rfl
  | some pt =>
      intro memory
      dsimp only
      rw [ensures_bind, ensures_get]
      cases found : memory.entries pt (vaPart3 va).toNat with
      | zero => exact Moves.refl
      | null => exact trivial
      | page number =>
          dsimp only
          rw [ensures_bind]
          apply (ensures_kfreePage number memory).mono
          rintro _ middle ⟨same, freed⟩
          unfold store
          rw [ensures_modify]
          refine Moves.of_apart ?_ same
          intro frame apart
          have taken := apart.take List.not_mem_nil found
          exact (freed _ _ taken).fill fun _ => Entry.noConfusion

theorem carries_sbrk (proc : Nat) (pgdir : Pgdir) (size : Int) :
    Carries [] (sbrk proc pgdir size) pgdir.root Pgdir.root := by
  unfold sbrk
  generalize List.range (-size).toNat = rounds
  refine Carries.bind
    (Carries.foldlM (fun _ => pgdir.root) ?_ rounds ()) ?_
  · intro _ i
    exact carries_releasePage proc pgdir _
  · intro _
    exact Carries.pure rfl

theorem carries_allocuvmLoop
    (proc : Nat)
    (newsz : Word)
    (rounds : Nat)
    (pgdir : Pgdir)
    (a : Word) :
    Carries holes (allocuvmLoop proc newsz rounds pgdir a) pgdir.root
      Pgdir.root := by
  induction rounds generalizing pgdir a with
  | zero =>
      apply Carries.ite
      · exact Carries.throw
      · exact Carries.pure rfl
  | succ rounds ih =>
      apply Carries.ite
      · apply ((carries_kallocPage (some proc)).alongside pgdir.root).bind
        intro page
        exact (carries_mapPage proc pgdir a page).bind fun pgdir => ih pgdir _
      · exact Carries.pure rfl

theorem carries_allocuvm
    (proc : Nat)
    (pgdir : Pgdir)
    (oldsz newsz : Word) :
    Carries holes (allocuvm proc pgdir oldsz newsz) pgdir.root
      fun result => result.2.root := by
  apply Carries.get
  intro memory
  apply (carries_allocuvmLoop proc newsz _ pgdir _).bind
  intro pgdir
  exact Carries.pure rfl

theorem carries_copyoutLoop
    (proc rounds : Nat)
    (pgdir : Pgdir)
    (va : Word)
    (len : Nat) :
    Carries holes (copyoutLoop proc rounds pgdir va len) pgdir.root
      Pgdir.root := by
  induction rounds generalizing pgdir va len with
  | zero => exact Carries.pure rfl
  | succ rounds ih =>
      apply Carries.ite
      · exact Carries.pure rfl
      · apply (carries_getPte proc pgdir va true).bind
        rintro ⟨pte, pgdir⟩
        cases pte with
        | none => exact Carries.throw
        | some pt =>
            apply Carries.get
            intro memory
            dsimp only
            apply Carries.ite
            · apply
                ((carries_kallocPage (some proc)).alongside pgdir.root).bind
              intro page
              exact ((carries_store_page pt _ page).giving pgdir.root).bind
                fun _ => ih pgdir _ _
            · exact ih pgdir _ _

theorem carries_copyout
    (proc : Nat)
    (pgdir : Pgdir)
    (va : Word)
    (len : Nat) :
    Carries holes (copyout proc pgdir va len) pgdir.root Pgdir.root := by
  apply Carries.ite
  · exact Carries.pure rfl
  · exact carries_copyoutLoop proc len pgdir va len

theorem carries_loadSegments
    (proc : Nat)
    (pgdir : Pgdir)
    (segments : List (Word × Word)) :
    Carries holes (loadSegments proc pgdir segments) pgdir.root
      Pgdir.root := by
  refine Carries.bind
    (Carries.foldlM
      (fun result : Pgdir × Option Word => result.1.root) ?_ segments
        (pgdir, none)) ?_
  · rintro ⟨pgdir, sz⟩ ⟨vaddr, memsz⟩
    apply Carries.ite Carries.throw_bind
    apply Carries.ite Carries.throw_bind
    apply (carries_allocuvm proc pgdir _ _).bind
    rintro ⟨sz, pgdir⟩
    exact Carries.ite Carries.throw_bind (Carries.pure rfl)
  · rintro ⟨pgdir, sz⟩
    exact Carries.pure rfl

theorem carries_pushStrings
    (proc : Nat)
    (pgdir : Pgdir)
    (sp : Word)
    (lens : List Nat) :
    Carries holes (pushStrings proc pgdir sp lens) pgdir.root
      fun result => result.1.root := by
  apply Carries.foldlM fun result : Pgdir × Word => result.1.root
  rintro ⟨pgdir, sp⟩ len
  apply (carries_copyout proc pgdir _ len).bind
  intro pgdir
  exact Carries.pure rfl

theorem carries_makeStack (proc : Nat) (pgdir : Pgdir) (image : Image) :
    Carries holes (makeStack proc pgdir image) pgdir.root Pgdir.root := by
  apply (carries_pushStrings proc pgdir _ _).bind
  rintro ⟨pgdir, sp⟩
  apply (carries_copyout proc pgdir _ _).bind
  intro pgdir
  exact carries_copyout proc pgdir _ _

theorem carries_execve
    (proc : Nat)
    (pgdir : Pgdir)
    (image : Option Image) :
    Carries holes (execve proc pgdir image) pgdir.root Pgdir.root := by
  apply ((carries_initPgdir proc).alongside pgdir.root).bind
  intro new
  cases image with
  | none =>
      exact ((carries_freePgdir new).giving pgdir.root).bind
        fun _ => Carries.pure rfl
  | some image =>
      apply ((carries_loadSegments proc new image.segments).frame
        pgdir.root).bind
      intro new
      apply ((carries_makeStack proc new image).frame pgdir.root).bind
      intro new
      rw [add_comm]
      exact ((carries_freePgdir pgdir).giving new.root).bind
        fun _ => Carries.pure rfl

theorem carries_copyTables
    (proc levels pgt : Nat)
    (va : Word)
    (temp : Pgdir) :
    Carries holes (copyTables proc levels pgt va temp) temp.root
      Pgdir.root := by
  induction levels generalizing pgt va temp with
  | zero =>
      rw [copyTables]
      generalize List.range 512 = indices
      apply Carries.foldlM
      intro temp i
      apply Carries.get
      intro memory
      apply Carries.ite
      · exact Carries.pure rfl
      · apply ((carries_kallocPage (some proc)).alongside temp.root).bind
        intro np
        exact carries_mapPage proc temp _ np
  | succ levels ih =>
      rw [copyTables]
      generalize List.range 512 = indices
      apply Carries.foldlM
      intro temp i
      apply Carries.get
      intro memory
      cases memory.entries pgt i with
      | zero => exact Carries.pure rfl
      | null => exact Carries.throw
      | page table => exact ih table _ temp

/-- The pages which a process holds by itself. -/
def Proc.pages (proc : Proc) : Multiset Nat :=
  {proc.kstack} + proc.pgdir.root

theorem carries_initProc (proc : Nat) :
    Carries holes (initProc proc) 0 Proc.pages := by
  apply (carries_kallocPage (some proc)).bind
  intro kstack
  apply ((carries_initPgdir proc).alongside {kstack}).bind
  intro pgdir
  exact Carries.pure (add_comm _ _)

theorem ensures_kallocPage (proc : Option Nat) (memory : Memory) :
    Ensures (fun _ => True) (kallocPage proc) memory fun page finish =>
      finish.allocatedFor page = proc := by
  unfold kallocPage
  rw [ensures_bind, ensures_get]
  cases memory.pages with
  | nil => exact trivial
  | cons page rest =>
      dsimp only
      rw [ensures_bind, ensures_set, ensures_pure]
      dsimp only
      rw [Function.update_self]

/-- The new directory has a page which is tagged with the process. -/
theorem ensures_initPgdir (proc : Nat) (memory : Memory) :
    Ensures (fun _ => True) (initPgdir proc) memory fun pgdir finish =>
      ∃ page, pgdir.pt = some page ∧
        finish.allocatedFor page = some proc := by
  unfold initPgdir newTable
  rw [ensures_bind, ensures_bind]
  apply (ensures_kallocPage (some proc) memory).mono
  intro page middle tagged
  rw [ensures_bind, ensures_modify, ensures_pure, ensures_pure]
  exact ⟨page, rfl, tagged⟩

/-- The part of `fork` after `create_proc`. -/
theorem carries_forkRest
    (proc parent : Nat)
    (parentDir : Pgdir)
    (child : Proc) :
    Carries holes
      (do
        let temp ← initPgdir proc
        let temp ←
          match parentDir.pt with
          | some pt => copyTables proc 3 pt 0 temp
          | none => throw ()
        return { child with pgdir := temp, parent := some parent })
      {child.kstack} Proc.pages := by
  apply ((carries_initPgdir proc).alongside {child.kstack}).bind
  intro temp
  cases parentDir.pt with
  | none => exact Carries.throw_bind
  | some pt =>
      generalize 3 = levels
      apply ((carries_copyTables proc levels pt 0 temp).frame
        {child.kstack}).bind
      intro temp
      exact Carries.pure (add_comm _ _)

/--
The page which `init_proc` has allocated for the directory of the child has
no place after `fork`.
-/
theorem ensures_forkProc
    (proc parent : Nat)
    (parentDir : Pgdir)
    (memory : Memory) :
    Ensures (fun _ => True) (forkProc proc parent parentDir) memory
      fun child finish =>
        ∃ lost, ∀ frame, Apart [] memory frame →
          Apart [] finish (child.pages + ({lost} + frame)) ∧
            finish.allocatedFor lost = some proc ∧
              ∀ page ∈ frame,
                finish.allocatedFor page = memory.allocatedFor page := by
  unfold forkProc initProc
  rw [ensures_bind, ensures_bind]
  have allocates :
      Carries [] (kallocPage (some proc)) 0 fun page => {page} :=
    carries_kallocPage (some proc)
  have directories : Carries [] (initPgdir proc) 0 Pgdir.root :=
    carries_initPgdir proc
  apply (allocates memory).mono
  intro kstack first stack
  rw [ensures_bind]
  apply ((directories first).and (ensures_initPgdir proc first)).mono
  rintro pgdir second ⟨directory, lost, isRoot, tagged⟩
  rw [ensures_pure]
  dsimp only
  have root : pgdir.root = {lost} := by
    unfold Pgdir.root
    rw [isRoot]
  rw [root] at directory
  apply (carries_forkRest proc parent parentDir
    ⟨kstack, pgdir, none, false⟩ second).mono
  intro child finish rest
  refine ⟨lost, ?_⟩
  intro frame apart
  rw [← zero_add frame] at apart
  rcases stack.whole apart with ⟨apart, stackKept⟩
  rw [← zero_add ({kstack} + frame)] at apart
  rcases directory.whole apart with ⟨apart, directoryKept⟩
  rw [add_left_comm] at apart
  rcases rest.whole apart with ⟨apart, restKept⟩
  refine ⟨apart, ?_, ?_⟩
  · rw [restKept lost (by simp), tagged]
  · intro page member
    rw [restKept page (by simp [member]), directoryKept page (by simp [member]),
      stackKept page member]

end Functions

end FudanOS.Kernel.ProcMemory
