import FudanOS.Kernel.PageBytes
import Mathlib.Tactic.Push

/-!
# Shadows of new pages

A `Shadow` has the pages which a call has mapped and the addresses which it has
filled since.  `Tracks` ties it to the page table and to the overlay of what
has been written, and each of the functions which map pages and write to them
has one lemma which says what it does to the shadow.
-/

namespace FudanOS.Kernel.PageBytes

open FudanOS.Aarch64.Mmu
open FudanOS.Library.Overlay
open FudanOS.Library.Programs
open FudanOS.Kernel.ProcMemory (Entry userTop)

/-! ## Shadows -/

structure Shadow where
  /-- The pages which have been mapped. -/
  fresh : Set Nat
  /-- The addresses which have been filled since their page was mapped. -/
  filled : Set Nat

namespace Shadow

/-- The pages are mapped, and not filled. -/
def map (shadow : Shadow) (pages : Set Nat) : Shadow where
  fresh := shadow.fresh ∪ pages
  filled := {address | address ∈ shadow.filled ∧ address / pageSize ∉ pages}

/-- The addresses are filled, with pages mapped where none was before. -/
def touch (shadow : Shadow) (old addresses : Set Nat) : Shadow where
  fresh := shadow.fresh ∪ (pagesOf addresses \ old)
  filled := shadow.filled ∪ addresses

variable (shadow : Shadow) {old addresses more pages others : Set Nat}

theorem mem_pagesOf
    {address : Nat}
    (member : address ∈ addresses) :
    address / pageSize ∈ pagesOf addresses :=
  Set.mem_image_of_mem _ member

theorem pagesOf_union :
    pagesOf (addresses ∪ more) = pagesOf addresses ∪ pagesOf more :=
  Set.image_union _ _ _

@[simp]
theorem map_empty : shadow.map ∅ = shadow := by
  simp [map]

theorem map_map :
    (shadow.map pages).map others = shadow.map (pages ∪ others) := by
  rw [map, map, map, mk.injEq]
  constructor
  · exact Set.union_assoc _ _ _
  · ext address
    simp only [Set.mem_ofPred_eq, Set.mem_union, not_or]
    exact and_assoc

@[simp]
theorem touch_empty : shadow.touch old ∅ = shadow := by
  simp [touch, pagesOf]

theorem touch_touch :
    (shadow.touch old addresses).touch old more =
      shadow.touch old (addresses ∪ more) := by
  rw [touch, touch, touch, mk.injEq]
  constructor
  · rw [pagesOf_union, Set.union_sdiff_distrib, Set.union_assoc]
  · exact Set.union_assoc _ _ _

/-- Addresses which have been touched are touched again. -/
theorem touch_again
    (within : more ⊆ addresses) :
    (shadow.touch old addresses).touch old more =
      shadow.touch old addresses := by
  rw [touch_touch, Set.union_eq_left.mpr within]

end Shadow

/-! ## What the shadow says of a state -/

/--
The overlay `stored` of the bytes, from a queue `start` on.  The pages `old`
were mapped before.
-/
structure Tracks
    (start : List Nat)
    (old : Set Nat)
    (shadow : Shadow)
    (pgdir : Pgdir)
    (queue : Queue)
    (stored : Nat × Nat → Option UInt8) : Prop where
  nodup : queue.pages.Nodup
  started : ∀ page ∈ queue.pages, page ∈ start
  unmapped :
    ∀ index page, pgdir.entry index = .page page → page ∉ queue.pages
  unwritten : ∀ page ∈ queue.pages, ∀ offset, stored (page, offset) = none
  alone :
    ∀ index other, ∀ page ∈ start,
      pgdir.entry index = .page page →
        pgdir.entry other = .page page → index = other
  old_iff :
    ∀ index, index ∈ old ↔ ∃ page ∉ start, pgdir.entry index = .page page
  fresh_iff :
    ∀ index,
      index ∈ shadow.fresh ↔ ∃ page ∈ start, pgdir.entry index = .page page
  mapped :
    ∀ address ∈ shadow.filled,
      address / pageSize ∈ shadow.fresh ∨ address / pageSize ∈ old
  filled_iff :
    ∀ address, ∀ page ∈ start,
      pgdir.entry (address / pageSize) = .page page →
        ((stored (page, address % pageSize)).isSome ↔
          address ∈ shadow.filled)

/-- The page has been taken from the queue and is not used yet. -/
structure Taken
    (start : List Nat)
    (pgdir : Pgdir)
    (queue : Queue)
    (stored : Nat × Nat → Option UInt8)
    (page : Nat) : Prop where
  started : page ∈ start
  left : page ∉ queue.pages
  unmapped : ∀ index, pgdir.entry index ≠ .page page
  unwritten : ∀ offset, stored (page, offset) = none

section Steps

variable
    {start : List Nat}
    {old : Set Nat}
    {shadow : Shadow}
    {pgdir : Pgdir}
    {queue : Queue}
    {stored : Nat × Nat → Option UInt8}

theorem piece_elsewhere
    {page offset other : Nat}
    {bytes : List UInt8}
    (different : other ≠ page)
    (at_ : Nat) :
    piece page offset bytes (other, at_) = none := by
  simp [piece, different]

theorem isSome_piece_iff
    {page offset place : Nat}
    {bytes : List UInt8} :
    (piece page offset bytes (page, place)).isSome ↔
      offset ≤ place ∧ place < offset + bytes.length := by
  by_cases below : offset ≤ place
  · simp [piece, below, List.getElem?_eq_some_iff, Option.isSome_iff_exists]
    omega
  · simp [piece, below]

namespace Tracks

/-- Only the entries of the page table matter. -/
theorem of_entry
    {other : Pgdir}
    (tracks : Tracks start old shadow pgdir queue stored)
    (same : other.entry = pgdir.entry) :
    Tracks start old shadow other queue stored := by
  constructor
  · exact tracks.nodup
  · exact tracks.started
  · rw [same]
    exact tracks.unmapped
  · exact tracks.unwritten
  · rw [same]
    exact tracks.alone
  · rw [same]
    exact tracks.old_iff
  · rw [same]
    exact tracks.fresh_iff
  · exact tracks.mapped
  · rw [same]
    exact tracks.filled_iff

/-- A page leaves the queue. -/
theorem take
    {page : Nat}
    {rest : List Nat}
    {count : Int}
    (tracks : Tracks start old shadow pgdir queue stored)
    (first : queue.pages = page :: rest) :
    Tracks start old shadow pgdir
        { queue with pages := rest, kallocPageCnt := count } stored ∧
      Taken start pgdir
        { queue with pages := rest, kallocPageCnt := count } stored page := by
  have nodup := tracks.nodup
  rw [first, List.nodup_cons] at nodup
  have still : ∀ other ∈ rest, other ∈ queue.pages := by
    intro other member
    rw [first]
    exact List.mem_cons_of_mem page member
  have head : page ∈ queue.pages := by
    rw [first]
    exact List.mem_cons_self
  constructor
  · constructor
    · exact nodup.2
    · exact fun other member => tracks.started other (still other member)
    · exact fun index other leads member =>
        tracks.unmapped index other leads (still other member)
    · exact fun other member => tracks.unwritten other (still other member)
    · exact tracks.alone
    · exact tracks.old_iff
    · exact tracks.fresh_iff
    · exact tracks.mapped
    · exact tracks.filled_iff
  · constructor
    · exact tracks.started page head
    · exact nodup.1
    · exact fun index leads => tracks.unmapped index page leads head
    · exact tracks.unwritten page head

/-- A page which is not mapped is written, as a table. -/
theorem storeElsewhere
    {page offset : Nat}
    {bytes : List UInt8}
    (tracks : Tracks start old shadow pgdir queue stored)
    (left : page ∉ queue.pages)
    (unmapped : ∀ index, pgdir.entry index ≠ .page page) :
    Tracks start old shadow pgdir queue
      (patch (piece page offset bytes) stored) := by
  have kept :
      ∀ other, other ≠ page → ∀ place,
        patch (piece page offset bytes) stored (other, place) =
          stored (other, place) :=
    fun other different place =>
      patch_of_none (piece_elsewhere different place)
  constructor
  · exact tracks.nodup
  · exact tracks.started
  · exact tracks.unmapped
  · intro other member place
    have different : other ≠ page := fun same => left (same ▸ member)
    rw [kept other different]
    exact tracks.unwritten other member place
  · exact tracks.alone
  · exact tracks.old_iff
  · exact tracks.fresh_iff
  · exact tracks.mapped
  · intro address other new leads
    have different : other ≠ page := by
      intro same
      rw [same] at leads
      exact unmapped _ leads
    rw [kept other different]
    exact tracks.filled_iff address other new leads

/-- The page which has been taken is mapped. -/
theorem setPage
    {page index : Nat}
    (tracks : Tracks start old shadow pgdir queue stored)
    (taken : Taken start pgdir queue stored page)
    (new : index ∉ old) :
    Tracks start old (shadow.map {index})
      (pgdir.setEntry index (.page page)) queue stored := by
  have here : (pgdir.setEntry index (.page page)).entry index = .page page :=
    Function.update_self _ _ _
  have elsewhere :
      ∀ other, other ≠ index →
        (pgdir.setEntry index (.page page)).entry other =
          pgdir.entry other :=
    fun other different => Function.update_of_ne different _ _
  have only :
      ∀ other,
        (pgdir.setEntry index (.page page)).entry other = .page page →
          other = index := by
    intro other leads
    by_contra different
    rw [elsewhere other different] at leads
    exact taken.unmapped other leads
  constructor
  · exact tracks.nodup
  · exact tracks.started
  · intro other target leads
    by_cases same : other = index
    · rw [same, here] at leads
      cases leads
      exact taken.left
    · rw [elsewhere other same] at leads
      exact tracks.unmapped other target leads
  · exact tracks.unwritten
  · intro one two target started first second
    by_cases same : target = page
    · rw [same] at first second
      rw [only one first, only two second]
    · have apart :
          ∀ other,
            (pgdir.setEntry index (.page page)).entry other = .page target →
              other ≠ index := by
        intro other leads equal
        rw [equal, here] at leads
        cases leads
        exact same rfl
      rw [elsewhere one (apart one first)] at first
      rw [elsewhere two (apart two second)] at second
      exact tracks.alone one two target started first second
  · intro other
    by_cases same : other = index
    · subst other
      rw [here]
      constructor
      · exact fun member => absurd member new
      · rintro ⟨target, outside, leads⟩
        cases leads
        exact absurd taken.started outside
    · rw [elsewhere other same]
      exact tracks.old_iff other
  · intro other
    by_cases same : other = index
    · subst other
      rw [here]
      constructor
      · exact fun _ => ⟨page, taken.started, rfl⟩
      · exact fun _ => Or.inr rfl
    · rw [elsewhere other same, ← tracks.fresh_iff other]
      simp [Shadow.map, same]
  · rintro address ⟨member, _⟩
    rcases tracks.mapped address member with fresh | before
    · exact Or.inl (Or.inl fresh)
    · exact Or.inr before
  · intro address target started leads
    by_cases same : address / pageSize = index
    · rw [same, here] at leads
      cases leads
      rw [taken.unwritten]
      simp [Shadow.map, same]
    · rw [elsewhere _ same] at leads
      rw [tracks.filled_iff address target started leads]
      simp [Shadow.map, same]

/-- The entry which was 0 leads to no page. -/
theorem setNull
    {index : Nat}
    (tracks : Tracks start old shadow pgdir queue stored)
    (zero : pgdir.entry index = .zero) :
    Tracks start old shadow (pgdir.setEntry index .null) queue stored := by
  have leads_iff :
      ∀ other page,
        (pgdir.setEntry index .null).entry other = .page page ↔
          pgdir.entry other = .page page := by
    intro other page
    by_cases same : other = index
    · subst other
      have here : (pgdir.setEntry index .null).entry index = .null :=
        Function.update_self _ _ _
      rw [here, zero]
      constructor <;> exact fun leads => nomatch leads
    · have elsewhere :
          (pgdir.setEntry index .null).entry other = pgdir.entry other :=
        Function.update_of_ne same _ _
      rw [elsewhere]
  constructor
  · exact tracks.nodup
  · exact tracks.started
  · simpa only [leads_iff] using tracks.unmapped
  · exact tracks.unwritten
  · simpa only [leads_iff] using tracks.alone
  · simpa only [leads_iff] using tracks.old_iff
  · simpa only [leads_iff] using tracks.fresh_iff
  · exact tracks.mapped
  · simpa only [leads_iff] using tracks.filled_iff

/-- Bytes of a page which is mapped are written. -/
theorem storeMapped
    {page index offset : Nat}
    {bytes : List UInt8}
    {addresses : Set Nat}
    (tracks : Tracks start old shadow pgdir queue stored)
    (leads : pgdir.entry index = .page page)
    (written :
      ∀ address,
        address ∈ addresses ↔
          address / pageSize = index ∧ offset ≤ address % pageSize ∧
            address % pageSize < offset + bytes.length) :
    Tracks start old (shadow.touch old addresses) pgdir queue
      (patch (piece page offset bytes) stored) := by
  have mapped : index ∈ shadow.fresh ∨ index ∈ old := by
    by_cases started : page ∈ start
    · exact Or.inl ((tracks.fresh_iff index).mpr ⟨page, started, leads⟩)
    · exact Or.inr ((tracks.old_iff index).mpr ⟨page, started, leads⟩)
  have same_fresh : (shadow.touch old addresses).fresh = shadow.fresh := by
    refine Set.union_eq_left.mpr ?_
    rintro other ⟨⟨address, member, rfl⟩, new⟩
    have within : address / pageSize = index := ((written address).mp member).1
    change address / pageSize ∉ old at new
    show address / pageSize ∈ shadow.fresh
    rw [within] at new ⊢
    exact mapped.resolve_right new
  constructor
  · exact tracks.nodup
  · exact tracks.started
  · exact tracks.unmapped
  · intro other member place
    have different : other ≠ page := fun same =>
      tracks.unmapped index page leads (same ▸ member)
    rw [patch_of_none (piece_elsewhere different place)]
    exact tracks.unwritten other member place
  · exact tracks.alone
  · exact tracks.old_iff
  · rw [same_fresh]
    exact tracks.fresh_iff
  · rw [same_fresh]
    rintro address (member | member)
    · exact tracks.mapped address member
    · rw [((written address).mp member).1]
      exact mapped
  · intro address other started found
    rw [isSome_patch, Bool.or_eq_true, Shadow.touch, Set.mem_union,
      tracks.filled_iff address other started found, or_comm]
    refine or_congr_right ?_
    by_cases same : other = page
    · subst other
      have here : address / pageSize = index :=
        tracks.alone _ _ page started found leads
      rw [isSome_piece_iff, written]
      simp [here]
    · have different : address / pageSize ≠ index := by
        intro equal
        rw [equal, leads] at found
        cases found
        exact same rfl
      rw [piece_elsewhere same, written]
      simp [different]

end Tracks

/-! ## Tables -/

/-- From one state to another, only pages for tables have been taken. -/
structure TablesAdded
    (start : List Nat)
    (old : Set Nat)
    (shadow : Shadow)
    (pgdir : Pgdir)
    (queue : Queue)
    (stored : Nat × Nat → Option UInt8)
    (count : Nat)
    (next : Pgdir)
    (rest : Queue)
    (after : Nat × Nat → Option UInt8) : Prop where
  tracks : Tracks start old shadow next rest after
  entry : next.entry = pgdir.entry
  taken :
    ∀ page, Taken start pgdir queue stored page →
      Taken start next rest after page
  kallocPageCnt : rest.kallocPageCnt = queue.kallocPageCnt + count
  pagenum : rest.pagenum = queue.pagenum

theorem blind_kallocPage
    (tracks : Tracks start old shadow pgdir queue stored) :
    Blind kallocPage queue stored fun page rest after =>
      after = stored ∧
      Tracks start old shadow pgdir rest after ∧
      Taken start pgdir rest after page ∧
      (∀ other ∈ rest.pages, other ∈ queue.pages) ∧
      page ∈ queue.pages ∧
      rest.kallocPageCnt = queue.kallocPageCnt + 1 ∧
      rest.pagenum = queue.pagenum := by
  refine Blind.bind (Blind.control ?_)
  cases free : queue.pages with
  | nil => exact Blind.throw ()
  | cons page rest =>
      refine Blind.bind (Blind.setControl (Blind.pure ?_))
      rcases tracks.take free with ⟨next, taken⟩
      exact
        ⟨rfl, next, taken, fun other member => List.mem_cons_of_mem _ member,
          List.mem_cons_self, rfl, rfl⟩

theorem blind_newTable
    (tracks : Tracks start old shadow pgdir queue stored) :
    Blind newTable queue stored fun _ =>
      TablesAdded start old shadow pgdir queue stored 1 pgdir := by
  refine Blind.bind ((blind_kallocPage tracks).mono ?_)
  rintro page rest _
    ⟨rfl, next, taken, still, first, kallocPageCnt, pagenum⟩
  refine Blind.write ?_
  constructor
  · exact next.storeElsewhere taken.left taken.unmapped
  · rfl
  · intro other before
    have different : other ≠ page := fun same => before.left (same ▸ first)
    constructor
    · exact before.started
    · exact fun member => before.left (still other member)
    · exact before.unmapped
    · intro offset
      rw [patch_of_none (piece_elsewhere different offset)]
      exact before.unwritten offset
  · exact kallocPageCnt
  · exact pagenum

namespace TablesAdded

variable
    {count more : Nat}
    {next last : Pgdir}
    {rest final : Queue}
    {after written : Nat × Nat → Option UInt8}

theorem refl
    (tracks : Tracks start old shadow pgdir queue stored) :
    TablesAdded start old shadow pgdir queue stored 0 pgdir queue stored where
  tracks := tracks
  entry := rfl
  taken := fun _ taken => taken
  kallocPageCnt := (Int.add_zero _).symm
  pagenum := rfl

theorem trans
    (first :
      TablesAdded start old shadow pgdir queue stored count next rest after)
    (second :
      TablesAdded start old shadow next rest after more last final written) :
    TablesAdded start old shadow pgdir queue stored (count + more)
      last final written where
  tracks := second.tracks
  entry := second.entry.trans first.entry
  taken := fun page taken => second.taken page (first.taken page taken)
  kallocPageCnt := by
    rw [second.kallocPageCnt, first.kallocPageCnt, Int.add_assoc]
    rfl
  pagenum := second.pagenum.trans first.pagenum

theorem of_entry
    (added :
      TablesAdded start old shadow pgdir queue stored count next rest after)
    (same : last.entry = next.entry) :
    TablesAdded start old shadow pgdir queue stored count
      last rest after where
  tracks := added.tracks.of_entry same
  entry := same.trans added.entry
  taken := by
    intro page taken
    rcases added.taken page taken with ⟨started, left, unmapped, unwritten⟩
    exact ⟨started, left, same ▸ unmapped, unwritten⟩
  kallocPageCnt := added.kallocPageCnt
  pagenum := added.pagenum

end TablesAdded

/-- `get_pte` takes a page for every table which is missing. -/
theorem blind_getPte
    (va : Word)
    (tracks : Tracks start old shadow pgdir queue stored) :
    Blind (getPte pgdir va) queue stored
      (TablesAdded start old shadow pgdir queue stored
        (pgdir.missing va)) := by
  -- The levels still to come are as they were in the first place.
  let Invariant (levels : List Nat) (next : Pgdir) (rest : Queue)
      (after : Nat × Nat → Option UInt8) : Prop :=
    levels.Nodup ∧
    (∀ level ∈ levels,
      next.table level (branch va level) =
        pgdir.table level (branch va level)) ∧
    ∃ count,
      count +
          levels.countP (fun level => !pgdir.table level (branch va level)) =
        pgdir.missing va ∧
      TablesAdded start old shadow pgdir queue stored count next rest after
  refine (Blind.foldlM Invariant ?_ ?_).mono ?_
  · rintro level rest next queue stored
      ⟨nodup, same, count, total, added⟩
    rw [List.nodup_cons] at nodup
    rw [List.countP_cons] at total
    have here := same level List.mem_cons_self
    refine Blind.ite ?_ ?_
    · intro present
      rw [here] at present
      rw [present] at total
      refine Blind.pure ⟨nodup.2, ?_, count, total, added⟩
      exact fun other member => same other (List.mem_cons_of_mem _ member)
    · intro absent
      rw [here, Bool.not_eq_true] at absent
      rw [absent] at total
      refine Blind.bind ((blind_newTable added.tracks).mono ?_)
      intro _ queue stored more
      refine Blind.pure ⟨nodup.2, ?_, count + 1, ?_, ?_⟩
      · intro other member
        have different : other ≠ level := fun equal =>
          nodup.1 (equal ▸ member)
        rw [← same other (List.mem_cons_of_mem _ member)]
        simp [Pgdir.addTable, Function.update_of_ne different]
      · rw [← total]
        simp only [Bool.not_false, if_true]
        omega
      · exact (added.trans more).of_entry rfl
  · refine ⟨by decide, fun _ _ => rfl, 0, ?_, .refl tracks⟩
    exact Nat.zero_add _
  · rintro next rest after ⟨_, _, count, total, added⟩
    rw [List.countP_nil, Nat.add_zero] at total
    rw [← total]
    exact added

/-! ## Writing to addresses of the process -/

theorem Tracks.not_old
    {index : Nat}
    (tracks : Tracks start old shadow pgdir queue stored)
    (zero : pgdir.entry index = .zero) :
    index ∉ old := by
  intro member
  rcases (tracks.old_iff index).mp member with ⟨page, _, leads⟩
  rw [zero] at leads
  cases leads

theorem Tracks.not_filled
    {index : Nat}
    (tracks : Tracks start old shadow pgdir queue stored)
    (zero : pgdir.entry index = .zero) :
    ∀ address ∈ shadow.filled, address / pageSize ≠ index := by
  intro address member here
  rcases tracks.mapped address member with fresh | before
  · rcases (tracks.fresh_iff _).mp fresh with ⟨page, _, leads⟩
    rw [here, zero] at leads
    cases leads
  · rw [here] at before
    exact tracks.not_old zero before

/-- A page for the address has been found, or mapped where none was. -/
structure Found
    (start : List Nat)
    (old : Set Nat)
    (shadow : Shadow)
    (va : Word)
    (found : Nat × Pgdir)
    (queue : Queue)
    (stored : Nat × Nat → Option UInt8) : Prop where
  leads : found.2.entry (vpn va) = .page found.1
  tracks :
    Tracks start old shadow found.2 queue stored ∨
      (vpn va ∉ old ∧
        (∀ address ∈ shadow.filled, address / pageSize ≠ vpn va) ∧
        Tracks start old (shadow.map {vpn va}) found.2 queue stored)

/-- A page is mapped before it is touched. -/
theorem Shadow.touch_map
    {index : Nat}
    {addresses : Set Nat}
    (shadow : Shadow)
    (new : index ∉ old)
    (empty : ∀ address ∈ shadow.filled, address / pageSize ≠ index)
    (within : pagesOf addresses = {index}) :
    (shadow.map {index}).touch old addresses =
      shadow.touch old addresses := by
  have added : ({index} \ old : Set Nat) = {index} := by
    simpa using new
  rw [touch, touch, mk.injEq, within, added]
  constructor
  · simp [map]
  · congr 1
    ext address
    simp only [map, Set.mem_ofPred_eq, Set.mem_singleton_iff]
    exact and_iff_left_of_imp (empty address)

theorem Found.store
    {va : Word}
    {found : Nat × Pgdir}
    {offset : Nat}
    {bytes : List UInt8}
    {addresses : Set Nat}
    (ready : Found start old shadow va found queue stored)
    (within : pagesOf addresses = {vpn va})
    (written :
      ∀ address,
        address ∈ addresses ↔
          address / pageSize = vpn va ∧ offset ≤ address % pageSize ∧
            address % pageSize < offset + bytes.length) :
    Tracks start old (shadow.touch old addresses) found.2 queue
      (patch (piece found.1 offset bytes) stored) := by
  rcases ready with ⟨leads, tracks | ⟨new, empty, tracks⟩⟩
  · exact tracks.storeMapped leads written
  · rw [← shadow.touch_map new empty within]
    exact tracks.storeMapped leads written

/-! ### Ranges of addresses -/

@[simp]
theorem range_zero (va : Word) : range va 0 = ∅ := by
  simp [range]

theorem range_add (va : Word) (first rest : Nat) :
    range va (first + rest) =
      range va first ∪ range (va + BitVec.ofNat 64 first) rest := by
  have shift :
      ∀ index : Nat,
        va + BitVec.ofNat 64 (first + index) =
          va + BitVec.ofNat 64 first + BitVec.ofNat 64 index := by
    intro index
    rw [BitVec.ofNat_add, BitVec.add_assoc]
  ext address
  constructor
  · rintro ⟨index, below, here⟩
    by_cases early : index < first
    · exact Or.inl ⟨index, early, here⟩
    · have split : first + (index - first) = index := by omega
      refine Or.inr ⟨index - first, by omega, ?_⟩
      rw [← shift, split]
      exact here
  · rintro (⟨index, below, here⟩ | ⟨index, below, here⟩)
    · exact ⟨index, by omega, here⟩
    · refine ⟨first + index, by omega, ?_⟩
      rw [shift]
      exact here

/-- The addresses of a piece which lies in one page -/
theorem location_add
    {va : Word}
    {index : Nat}
    (within : va.toNat % pageSize + index < pageSize) :
    location (va + BitVec.ofNat 64 index) = location va + index := by
  rw [location, location, BitVec.toNat_add, BitVec.toNat_ofNat]
  have word : va.toNat < 2 ^ 64 := va.isLt
  unfold pageSize at within
  omega

theorem location_parts (va : Word) :
    location va = vpn va * pageSize + va.toNat % pageSize := by
  rw [vpn, location]
  unfold pageSize
  omega

theorem mem_range_iff
    {va : Word}
    {len : Nat}
    (within : va.toNat % pageSize + len ≤ pageSize)
    (address : Nat) :
    address ∈ range va len ↔
      address / pageSize = vpn va ∧ va.toNat % pageSize ≤ address % pageSize ∧
        address % pageSize < va.toNat % pageSize + len := by
  have parts := location_parts va
  constructor
  · rintro ⟨index, below, here⟩
    rw [location_add (by omega), parts] at here
    unfold pageSize at *
    omega
  · rintro ⟨page, above, below⟩
    refine ⟨address % pageSize - va.toNat % pageSize, by omega, ?_⟩
    rw [location_add (by omega), parts, ← page]
    unfold pageSize at *
    omega

theorem pagesOf_range
    {va : Word}
    {len : Nat}
    (positive : 0 < len)
    (within : va.toNat % pageSize + len ≤ pageSize) :
    pagesOf (range va len) = {vpn va} := by
  ext index
  constructor
  · rintro ⟨address, member, rfl⟩
    exact ((mem_range_iff within address).mp member).1
  · rintro rfl
    refine ⟨location va, ⟨0, positive, ?_⟩, rfl⟩
    rw [location_add (by omega)]
    rfl

/-! ### Faults and stores -/

/-- What `pgfault_handler` does, by the entry and by the pages left. -/
theorem blind_pgfaultHandler
    (addr : Word)
    (tracks : Tracks start old shadow pgdir queue stored) :
    Blind (pgfaultHandler pgdir addr) queue stored fun next rest after =>
      let few :=
        (queue.pagenum - (queue.kallocPageCnt + pgdir.missing addr)) % 2 ^ 64
          ≤ 1024
      (pgdir.entry (vpn addr) ≠ .zero ∧
        Tracks start old shadow next rest after ∧
        next.entry (vpn addr) = pgdir.entry (vpn addr)) ∨
      (pgdir.entry (vpn addr) = .zero ∧ few ∧
        Tracks start old shadow next rest after ∧
        next.entry (vpn addr) = .null) ∨
      (pgdir.entry (vpn addr) = .zero ∧ ¬ few ∧
        Tracks start old (shadow.map {vpn addr}) next rest after ∧
        ∃ page, next.entry (vpn addr) = .page page) := by
  refine Blind.bind ((blind_getPte addr tracks).mono ?_)
  intro next rest after added
  rw [← added.entry]
  cases here : next.entry (vpn addr) with
  | page page =>
      exact Blind.pure (Or.inl ⟨nofun, added.tracks, here⟩)
  | null => exact Blind.pure (Or.inl ⟨nofun, added.tracks, here⟩)
  | zero =>
      have left :
          leftPageCnt rest =
            (queue.pagenum - (queue.kallocPageCnt + pgdir.missing addr)) %
              2 ^ 64 := by
        rw [leftPageCnt, added.kallocPageCnt, added.pagenum]
      rw [← left]
      refine Blind.bind (Blind.bind (Blind.control (Blind.ite ?_ ?_)))
      · intro few
        refine Blind.pure (Blind.pure (Or.inr (Or.inl ?_)))
        exact
          ⟨rfl, few, added.tracks.setNull here, Function.update_self _ _ _⟩
      · intro many
        refine Blind.bind ((blind_kallocPage added.tracks).mono ?_)
        rintro page queue _ ⟨rfl, tracks, taken, _⟩
        refine Blind.pure (Blind.pure (Or.inr (Or.inr ?_)))
        exact
          ⟨rfl, many, tracks.setPage taken (tracks.not_old here),
            page, Function.update_self _ _ _⟩

theorem blind_faultIn
    (va : Word)
    (tracks : Tracks start old shadow pgdir queue stored) :
    Blind (faultIn pgdir va) queue stored
      (Found start old shadow va) := by
  rw [faultIn]
  split
  · rename_i page here
    exact Blind.pure ⟨here, Or.inl tracks⟩
  · exact Blind.throw ()
  · rename_i zero
    refine Blind.bind ((blind_pgfaultHandler va tracks).mono ?_)
    rintro next rest after (⟨other, _⟩ | ⟨_, _, _, null⟩ | ⟨_, _, new, _⟩)
    · exact absurd zero other
    · rw [null]
      exact Blind.throw ()
    · split
      · rename_i page here
        exact
          Blind.pure
            ⟨here,
              Or.inr ⟨tracks.not_old zero, tracks.not_filled zero, new⟩⟩
      · exact Blind.throw ()
      · exact Blind.throw ()

theorem blind_storeByte
    (va : Word)
    (byte : UInt8)
    (tracks : Tracks start old shadow pgdir queue stored) :
    Blind (storeByte pgdir va byte) queue stored
      (Tracks start old (shadow.touch old (range va 1))) := by
  have within : va.toNat % pageSize + 1 ≤ pageSize :=
    Nat.mod_lt _ (by decide)
  refine Blind.ite (fun _ => Blind.throw ()) fun _ => ?_
  refine Blind.bind ((blind_faultIn va tracks).mono ?_)
  rintro ⟨page, next⟩ rest after found
  refine Blind.bind (Blind.write (Blind.pure ?_))
  exact found.store (pagesOf_range Nat.one_pos within) (mem_range_iff within)

theorem blind_storeBytes
    (va : Word)
    (bytes : List UInt8)
    (tracks : Tracks start old shadow pgdir queue stored) :
    Blind (storeBytes pgdir va bytes) queue stored
      (Tracks start old (shadow.touch old (range va bytes.length))) := by
  induction bytes generalizing pgdir queue stored shadow va with
  | nil =>
      rw [List.length_nil, range_zero, Shadow.touch_empty]
      exact Blind.pure tracks
  | cons byte bytes ih =>
      refine Blind.bind ((blind_storeByte va byte tracks).mono ?_)
      intro next rest after touched
      rw [List.length_cons, Nat.add_comm, range_add, ← Shadow.touch_touch]
      exact ih (va + 1) touched

theorem blind_copyoutPage
    (va : Word)
    (tracks : Tracks start old shadow pgdir queue stored) :
    Blind (copyoutPage pgdir va) queue stored
      (Found start old shadow va) := by
  refine Blind.bind ((blind_getPte va tracks).mono ?_)
  intro next rest after added
  split
  · rename_i page here
    exact Blind.pure ⟨here, Or.inl added.tracks⟩
  · exact Blind.throw ()
  · rename_i zero
    refine Blind.bind ((blind_kallocPage added.tracks).mono ?_)
    rintro page queue _ ⟨rfl, tracks, taken, _⟩
    refine Blind.pure ⟨Function.update_self _ _ _, Or.inr ?_⟩
    exact
      ⟨tracks.not_old zero, tracks.not_filled zero,
        tracks.setPage taken (tracks.not_old zero)⟩

/-- The loop copies everything, one page after the other. -/
theorem blind_copyoutLoop
    (rounds : Nat)
    (va : Word)
    (bytes : List UInt8)
    (enough : bytes.length ≤ rounds)
    (tracks : Tracks start old shadow pgdir queue stored) :
    Blind (copyoutLoop rounds pgdir va bytes) queue stored
      (Tracks start old (shadow.touch old (range va bytes.length))) := by
  induction rounds generalizing pgdir queue stored shadow va bytes with
  | zero =>
      rw [Nat.le_zero.mp enough, range_zero, Shadow.touch_empty]
      exact Blind.pure tracks
  | succ rounds ih =>
      refine Blind.ite ?_ ?_
      · intro done
        rw [done, range_zero, Shadow.touch_empty]
        exact Blind.pure tracks
      · intro more
        have offset : va.toNat % pageSize < pageSize :=
          Nat.mod_lt _ (by decide)
        let n := min bytes.length (pageSize - va.toNat % pageSize)
        have positive : 0 < n := by omega
        have within : va.toNat % pageSize + n ≤ pageSize := by omega
        have taken : (bytes.take n).length = n := by
          rw [List.length_take]
          omega
        refine Blind.bind ((blind_copyoutPage va tracks).mono ?_)
        rintro ⟨page, next⟩ rest after found
        refine Blind.bind (Blind.write ?_)
        have touched :
            Tracks start old (shadow.touch old (range va n)) next rest
              (patch (piece page (va.toNat % pageSize) (bytes.take n))
                after) := by
          refine found.store (pagesOf_range positive within) ?_
          rw [taken]
          exact mem_range_iff within
        have remaining : (bytes.drop n).length ≤ rounds := by
          rw [List.length_drop]
          omega
        have whole :
            range va bytes.length =
              range va n ∪
                range (va + BitVec.ofNat 64 n) (bytes.drop n).length := by
          rw [← range_add, List.length_drop]
          congr 1
          omega
        rw [whole, ← Shadow.touch_touch]
        exact ih (va + BitVec.ofNat 64 n) (bytes.drop n) remaining touched

theorem blind_copyout
    (va : Word)
    (bytes : List UInt8)
    (tracks : Tracks start old shadow pgdir queue stored) :
    Blind (copyout pgdir va bytes) queue stored fun next rest after =>
      if userTop < (va + BitVec.ofNat 64 bytes.length).toNat then
        Tracks start old shadow next rest after
      else
        Tracks start old (shadow.touch old (range va bytes.length))
          next rest after := by
  refine Blind.ite ?_ ?_
  · intro beyond
    simp only [if_pos beyond]
    exact Blind.pure tracks
  · intro within
    simp only [if_neg within]
    exact blind_copyoutLoop bytes.length va bytes le_rfl tracks

end Steps

end FudanOS.Kernel.PageBytes
