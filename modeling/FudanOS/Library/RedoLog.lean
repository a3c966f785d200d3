import Mathlib.Data.List.Nodup
import Mathlib.Logic.Function.Basic

/-!
# Redo logs on a disk with atomic writes

A disk is a function from addresses to data, changed by an ordered list of
writes.  A redo log reserves a header and a row of slots.  The header lists
the home addresses whose newest contents are in the slots, and the `view` of a
disk reads a listed address from its slot and every other address from its
home.

`Represents contents disk` says that the view of the disk is `contents`.  The
writes of a commit keep the old contents represented up to the write of the
header and the new contents from then on; the writes of a recovery keep the
contents represented throughout and end with every home address installed.
-/

namespace FudanOS.Library.RedoLog

variable {Address Data : Type*} [DecidableEq Address]

/-- The disk after some writes, applied in order. -/
def applyWrites
    (disk : Address → Data)
    (writes : List (Address × Data)) :
    Address → Data :=
  writes.foldl
    (fun disk write => Function.update disk write.1 write.2)
    disk

@[simp]
theorem applyWrites_nil (disk : Address → Data) :
    applyWrites disk [] = disk :=
  rfl

@[simp]
theorem applyWrites_cons
    (disk : Address → Data)
    (write : Address × Data)
    (writes : List (Address × Data)) :
    applyWrites disk (write :: writes) =
      applyWrites (Function.update disk write.1 write.2) writes :=
  rfl

theorem applyWrites_append
    (disk : Address → Data)
    (front back : List (Address × Data)) :
    applyWrites disk (front ++ back) =
      applyWrites (applyWrites disk front) back := by
  simp [applyWrites]

/-- Writes to other addresses leave an address alone. -/
theorem applyWrites_of_ne
    {disk : Address → Data}
    {writes : List (Address × Data)}
    {address : Address}
    (others : ∀ write ∈ writes, write.1 ≠ address) :
    applyWrites disk writes address = disk address := by
  induction writes generalizing disk with
  | nil => rfl
  | cons write writes ih =>
      rw [applyWrites_cons,
        ih fun later member => others later (List.mem_cons_of_mem _ member)]
      exact Function.update_of_ne (others write List.mem_cons_self).symm _ _

/-- An address which is written only with one value holds it afterwards. -/
theorem applyWrites_constant
    {disk : Address → Data}
    {writes : List (Address × Data)}
    {address : Address}
    {data : Data}
    (written : ∃ write ∈ writes, write.1 = address)
    (constant : ∀ write ∈ writes, write.1 = address → write.2 = data) :
    applyWrites disk writes address = data := by
  induction writes generalizing disk with
  | nil => simp at written
  | cons write writes ih =>
      rw [applyWrites_cons]
      by_cases later : ∃ other ∈ writes, other.1 = address
      · exact ih later fun other member =>
          constant other (List.mem_cons_of_mem _ member)
      · rw [applyWrites_of_ne fun other member same =>
          later ⟨other, member, same⟩]
        rcases written with ⟨other, member, same⟩
        rcases List.mem_cons.mp member with rfl | tail
        · rw [← same, Function.update_self]
          exact constant other List.mem_cons_self same
        · exact absurd ⟨other, tail, same⟩ later

/-- Every disk which the writes pass through, the first one included. -/
def Through
    (holds : (Address → Data) → Prop)
    (disk : Address → Data)
    (writes : List (Address × Data)) : Prop :=
  ∀ count, holds (applyWrites disk (writes.take count))

namespace Through

variable
    {holds : (Address → Data) → Prop}
    {disk : Address → Data}
    {front back : List (Address × Data)}

theorem nil (initially : holds disk) : Through holds disk [] := by
  intro count
  simpa using initially

theorem cons
    {write : Address × Data}
    (initially : holds disk)
    (later : Through holds (Function.update disk write.1 write.2) back) :
    Through holds disk (write :: back) := by
  intro count
  cases count with
  | zero => exact initially
  | succ count => exact later count

theorem append
    (first : Through holds disk front)
    (second : Through holds (applyWrites disk front) back) :
    Through holds disk (front ++ back) := by
  intro count
  rw [List.take_append]
  rcases Nat.le_total count front.length with inside | outside
  · rw [Nat.sub_eq_zero_of_le inside, List.take_zero, List.append_nil]
    exact first count
  · rw [List.take_of_length_le outside, applyWrites_append]
    exact second _

/-- The first of the disks. -/
theorem first (through : Through holds disk front) : holds disk :=
  through 0

/-- The last of the disks. -/
theorem last (through : Through holds disk front) :
    holds (applyWrites disk front) := by
  have whole := through front.length
  rwa [List.take_length] at whole

end Through

/-- Where a redo log keeps its header and its slots. -/
structure Layout (Address Data : Type*) where
  header : Address
  slot : Nat → Address
  capacity : Nat
  /-- The home addresses listed by a header. -/
  entries : Data → List Address
  slot_ne_header : ∀ index < capacity, slot index ≠ header
  slot_injective :
    ∀ left < capacity, ∀ right < capacity,
      slot left = slot right → left = right

variable (layout : Layout Address Data)

/-- Addresses which the log does not use for itself. -/
def Layout.Home (address : Address) : Prop :=
  address ≠ layout.header ∧
    ∀ index < layout.capacity, address ≠ layout.slot index

/-- The home addresses which the header of a disk lists. -/
def Layout.logged (disk : Address → Data) : List Address :=
  layout.entries (disk layout.header)

/-- What a disk says about an address, read through its log. -/
def Layout.view (disk : Address → Data) (address : Address) : Data :=
  if address ∈ layout.logged disk then
    disk (layout.slot ((layout.logged disk).idxOf address))
  else
    disk address

/-- A list of addresses which a header may hold. -/
structure Layout.Listable (addresses : List Address) : Prop where
  nodup : addresses.Nodup
  home : ∀ address ∈ addresses, layout.Home address
  fits : addresses.length ≤ layout.capacity

/-- The view of a well-formed disk, outside the log. -/
structure Layout.Represents
    (contents disk : Address → Data) : Prop where
  listable : layout.Listable (layout.logged disk)
  view : ∀ address, layout.Home address →
    layout.view disk address = contents address

/-- Nothing is logged and every home address holds its contents. -/
structure Layout.Installed
    (contents disk : Address → Data) : Prop where
  idle : layout.logged disk = []
  home : ∀ address, layout.Home address → disk address = contents address

section Lemmas

variable
    {layout}
    {contents disk : Address → Data}

omit [DecidableEq Address] in
theorem Layout.Listable.nil : layout.Listable [] where
  nodup := List.nodup_nil
  home := by simp
  fits := Nat.zero_le _

theorem Layout.Installed.represents
    (installed : layout.Installed contents disk) :
    layout.Represents contents disk where
  listable := by
    rw [installed.idle]
    exact Layout.Listable.nil
  view := by
    intro address home
    rw [Layout.view, installed.idle, if_neg List.not_mem_nil]
    exact installed.home address home

/-- A write to a slot is invisible while nothing is logged. -/
theorem Layout.Installed.write_slot
    (installed : layout.Installed contents disk)
    {index : Nat}
    (below : index < layout.capacity)
    (data : Data) :
    layout.Installed contents
      (Function.update disk (layout.slot index) data) where
  idle := by
    have other := layout.slot_ne_header index below
    rw [Layout.logged, Function.update_of_ne other.symm]
    exact installed.idle
  home := by
    intro address home
    rw [Function.update_of_ne (home.2 index below)]
    exact installed.home address home

/-- Contents agree with the slots for every listed address. -/
def Layout.Copied
    (layout : Layout Address Data)
    (addresses : List Address)
    (contents disk : Address → Data) : Prop :=
  ∀ address ∈ addresses,
    disk (layout.slot (addresses.idxOf address)) = contents address

/-- Writing the header makes the copied contents the represented ones. -/
theorem Layout.Installed.write_header
    (installed : layout.Installed contents disk)
    {next : Address → Data}
    {header : Data}
    (listable : layout.Listable (layout.entries header))
    (copied : layout.Copied (layout.entries header) next disk)
    (unchanged :
      ∀ address ∉ layout.entries header, next address = contents address) :
    layout.Represents next
      (Function.update disk layout.header header) := by
  have logged :
      layout.logged (Function.update disk layout.header header) =
        layout.entries header := by
    rw [Layout.logged, Function.update_self]
  refine ⟨logged ▸ listable, ?_⟩
  intro address home
  rw [Layout.view, logged]
  split_ifs with listed
  · have below :
        (layout.entries header).idxOf address < layout.capacity :=
      Nat.lt_of_lt_of_le (List.idxOf_lt_length_of_mem listed) listable.fits
    rw [Function.update_of_ne (layout.slot_ne_header _ below)]
    exact copied address listed
  · rw [Function.update_of_ne home.1, unchanged address listed]
    exact installed.home address home

/-- Installing a listed address keeps the represented contents. -/
theorem Layout.Represents.install
    (represents : layout.Represents contents disk)
    {address : Address}
    (listed : address ∈ layout.logged disk) :
    layout.Represents contents
        (Function.update disk address (contents address)) ∧
      layout.logged (Function.update disk address (contents address)) =
        layout.logged disk := by
  have home := represents.listable.home address listed
  have logged :
      layout.logged (Function.update disk address (contents address)) =
        layout.logged disk := by
    rw [Layout.logged, Function.update_of_ne home.1.symm]
    rfl
  refine ⟨⟨logged ▸ represents.listable, ?_⟩, logged⟩
  intro other otherHome
  have before := represents.view other otherHome
  rw [Layout.view, logged]
  rw [Layout.view] at before
  split_ifs at before ⊢ with otherListed
  · have below : (layout.logged disk).idxOf other < layout.capacity :=
      Nat.lt_of_lt_of_le (List.idxOf_lt_length_of_mem otherListed)
        represents.listable.fits
    rw [Function.update_of_ne (home.2 _ below).symm]
    exact before
  · by_cases same : other = address
    · subst same
      exact absurd listed otherListed
    · rw [Function.update_of_ne same]
      exact before

/-- The writes which install some addresses. -/
def installs
    (contents : Address → Data)
    (addresses : List Address) :
    List (Address × Data) :=
  addresses.map fun address => (address, contents address)

theorem Layout.Represents.through_installs
    (represents : layout.Represents contents disk)
    {addresses : List Address}
    (listed : ∀ address ∈ addresses, address ∈ layout.logged disk) :
    Through (layout.Represents contents) disk
      (installs contents addresses) := by
  induction addresses generalizing disk with
  | nil => exact Through.nil represents
  | cons address addresses ih =>
      have installed :=
        represents.install (listed address List.mem_cons_self)
      refine Through.cons represents (ih installed.1 ?_)
      intro other member
      rw [installed.2]
      exact listed other (List.mem_cons_of_mem _ member)

theorem applyWrites_installs
    (disk : Address → Data)
    (addresses : List Address)
    (address : Address) :
    applyWrites disk (installs contents addresses) address =
      if address ∈ addresses then contents address else disk address := by
  split_ifs with member
  · apply applyWrites_constant
    · exact ⟨_, List.mem_map.mpr ⟨address, member, rfl⟩, rfl⟩
    · intro write written same
      rcases List.mem_map.mp written with ⟨other, _, rfl⟩
      rw [← same]
  · apply applyWrites_of_ne
    intro write written same
    rcases List.mem_map.mp written with ⟨other, present, rfl⟩
    exact member (same ▸ present)

/-- Installing what is listed and clearing the header completes a recovery. -/
theorem Layout.Represents.through_recovery
    (represents : layout.Represents contents disk)
    {header : Data}
    (empty : layout.entries header = []) :
    Through (layout.Represents contents) disk
        (installs contents (layout.logged disk) ++
          [(layout.header, header)]) ∧
      layout.Installed contents
        (applyWrites disk
          (installs contents (layout.logged disk) ++
            [(layout.header, header)])) := by
  have installing :=
    represents.through_installs fun _ member => member
  have installed :
      layout.Installed contents
        (Function.update
          (applyWrites disk (installs contents (layout.logged disk)))
          layout.header header) := by
    refine ⟨?_, ?_⟩
    · rw [Layout.logged, Function.update_self]
      exact empty
    · intro address home
      rw [Function.update_of_ne home.1, applyWrites_installs]
      split_ifs with listed
      · rfl
      · have view := represents.view address home
        rw [Layout.view, if_neg listed] at view
        exact view
  constructor
  · exact Through.append installing
      (Through.cons installing.last (Through.nil installed.represents))
  · rw [applyWrites_append]
    exact installed

/-- The writes which fill the first slots. -/
def copies
    (layout : Layout Address Data)
    (data : Nat → Data)
    (count : Nat) :
    List (Address × Data) :=
  (List.range count).map fun index => (layout.slot index, data index)

omit [DecidableEq Address] in
theorem copies_succ (data : Nat → Data) (count : Nat) :
    copies layout data (count + 1) =
      copies layout data count ++ [(layout.slot count, data count)] := by
  simp [copies, List.range_succ]

theorem Layout.Installed.through_copies
    (installed : layout.Installed contents disk)
    (data : Nat → Data)
    {count : Nat}
    (fits : count ≤ layout.capacity) :
    Through (layout.Installed contents) disk (copies layout data count) := by
  induction count with
  | zero => exact Through.nil installed
  | succ count ih =>
      have before := ih (Nat.le_of_succ_le fits)
      rw [copies_succ]
      exact Through.append before
        (Through.cons before.last
          (Through.nil (before.last.write_slot fits _)))

theorem applyWrites_copies
    (data : Nat → Data)
    {count index : Nat}
    (fits : count ≤ layout.capacity)
    (below : index < count) :
    applyWrites disk (copies layout data count) (layout.slot index) =
      data index := by
  apply applyWrites_constant
  · exact ⟨_, List.mem_map.mpr ⟨index, List.mem_range.mpr below, rfl⟩, rfl⟩
  · intro write written same
    rcases List.mem_map.mp written with ⟨other, member, rfl⟩
    have otherBelow := List.mem_range.mp member
    have equal :=
      layout.slot_injective other (Nat.lt_of_lt_of_le otherBelow fits)
        index (Nat.lt_of_lt_of_le below fits) same
    rw [equal]

/-- The writes of a commit: copies, header, installs, empty header. -/
def commitWrites
    (layout : Layout Address Data)
    (next : Address → Data)
    (data : Nat → Data)
    (header cleared : Data) :
    List (Address × Data) :=
  copies layout data (layout.entries header).length ++
    (layout.header, header) ::
      (installs next (layout.entries header) ++
        [(layout.header, cleared)])

/--
A commit is atomic.  Up to its copies the old contents are represented, from
its header on the new ones, and at its end the new ones are installed.
-/
theorem Layout.Installed.through_commit
    (installed : layout.Installed contents disk)
    {next : Address → Data}
    {data : Nat → Data}
    {header cleared : Data}
    (listable : layout.Listable (layout.entries header))
    (copied :
      ∀ address ∈ layout.entries header,
        data ((layout.entries header).idxOf address) = next address)
    (unchanged :
      ∀ address ∉ layout.entries header, next address = contents address)
    (empty : layout.entries cleared = []) :
    (∀ count ≤ (layout.entries header).length,
        layout.Represents contents
          (applyWrites disk
            ((commitWrites layout next data header cleared).take count))) ∧
      (∀ count > (layout.entries header).length,
        layout.Represents next
          (applyWrites disk
            ((commitWrites layout next data header cleared).take count))) ∧
      layout.Installed next
        (applyWrites disk
          (commitWrites layout next data header cleared)) := by
  have copying := installed.through_copies data listable.fits
  have length :
      (copies layout data (layout.entries header).length).length =
        (layout.entries header).length := by
    simp [copies]
  have written :
      layout.Represents next
        (Function.update
          (applyWrites disk
            (copies layout data (layout.entries header).length))
          layout.header header) := by
    apply copying.last.write_header listable _ unchanged
    intro address listed
    rw [applyWrites_copies data listable.fits
      (List.idxOf_lt_length_of_mem listed)]
    exact copied address listed
  have recovery := written.through_recovery empty
  rw [show layout.logged
        (Function.update
          (applyWrites disk
            (copies layout data (layout.entries header).length))
          layout.header header) = layout.entries header by
      rw [Layout.logged, Function.update_self]] at recovery
  refine ⟨?_, ?_, ?_⟩
  · intro count inside
    rw [commitWrites, List.take_append_of_le_length (by rw [length]; exact inside)]
    exact (copying count).represents
  · intro count outside
    rw [commitWrites, List.take_append, length,
      List.take_of_length_le (by rw [length]; exact Nat.le_of_lt outside),
      applyWrites_append]
    rcases Nat.exists_eq_add_of_lt outside with ⟨more, rfl⟩
    rw [show (layout.entries header).length + more + 1 -
        (layout.entries header).length = more + 1 by omega]
    exact recovery.1 more
  · rw [commitWrites, applyWrites_append]
    exact recovery.2

end Lemmas

end FudanOS.Library.RedoLog
