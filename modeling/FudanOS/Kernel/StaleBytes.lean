import FudanOS.Kernel.PageShadow
import Mathlib.Order.Interval.Set.Basic

/-!
# Stale bytes in new pages

The shadow of a new program: its segments one after the other, and its stack,
which `execve` fills entirely.  The theorem at the end says for which calls no
byte which was left in a free page reaches the process.
-/

namespace FudanOS.Kernel.PageBytes

open FudanOS.Aarch64.Mmu
open FudanOS.Library.Overlay
open FudanOS.Library.Programs
open FudanOS.Kernel.ProcMemory (Entry userTop)

section Loading

variable
    {start : List Nat}
    {shadow : Shadow}
    {pgdir : Pgdir}
    {queue : Queue}
    {stored : Nat × Nat → Option UInt8}

/-! ## Segments -/

theorem grown_of_lt
    {a newsz : Word}
    (below : a < newsz) :
    grown a newsz =
      {vpn a} ∪ grown (a + BitVec.ofNat 64 pageSize) newsz := by
  have shift :
      ∀ n : Nat,
        a + BitVec.ofNat 64 ((n + 1) * pageSize) =
          a + BitVec.ofNat 64 pageSize + BitVec.ofNat 64 (n * pageSize) := by
    intro n
    rw [Nat.succ_mul, Nat.add_comm, BitVec.ofNat_add, BitVec.add_assoc]
  have first : a + BitVec.ofNat 64 (0 * pageSize) = a := by simp
  ext index
  constructor
  · rintro ⟨n, all, here⟩
    cases n with
    | zero =>
        rw [first] at here
        exact Or.inl here.symm
    | succ n =>
        refine Or.inr ⟨n, fun k within => ?_, ?_⟩
        · rw [← shift]
          exact all (k + 1) (Nat.succ_le_succ within)
        · rw [← shift]
          exact here
  · rintro (here | ⟨n, all, here⟩)
    · refine ⟨0, fun k within => ?_, ?_⟩
      · rw [Nat.le_zero.mp within, first]
        exact below
      · rw [first]
        exact here.symm
    · refine ⟨n + 1, fun k within => ?_, ?_⟩
      · cases k with
        | zero =>
            rw [first]
            exact below
        | succ k =>
            rw [shift]
            exact all k (Nat.le_of_succ_le_succ within)
      · rw [shift]
        exact here

theorem grown_of_not_lt
    {a newsz : Word}
    (done : ¬ a < newsz) :
    grown a newsz = ∅ := by
  ext index
  constructor
  · rintro ⟨n, all, _⟩
    have below := all 0 (Nat.zero_le n)
    rw [Nat.zero_mul] at below
    exact done (by simpa using below)
  · exact fun member => nomatch member

theorem blind_allocuvmLoop
    (newsz : Word)
    (rounds : Nat)
    (a : Word)
    (tracks : Tracks start ∅ shadow pgdir queue stored) :
    Blind (allocuvmLoop newsz rounds pgdir a) queue stored
      (Tracks start ∅ (shadow.map (grown a newsz))) := by
  induction rounds generalizing pgdir queue stored shadow a with
  | zero =>
      refine Blind.ite (fun _ => Blind.throw ()) fun done => ?_
      rw [grown_of_not_lt done, Shadow.map_empty]
      exact Blind.pure tracks
  | succ rounds ih =>
      refine Blind.ite ?_ ?_
      · intro below
        refine Blind.bind ((blind_kallocPage tracks).mono ?_)
        rintro page queue _ ⟨rfl, tracks, taken, _⟩
        refine Blind.bind ((blind_getPte a tracks).mono ?_)
        intro next rest after added
        rw [grown_of_lt below, ← Shadow.map_map]
        refine ih (a + BitVec.ofNat 64 pageSize) ?_
        exact
          added.tracks.setPage (added.taken page taken)
            (Set.notMem_empty _)
      · intro done
        rw [grown_of_not_lt done, Shadow.map_empty]
        exact Blind.pure tracks

/-- What the loading of a segment does to the shadow. -/
def Shadow.load (shadow : Shadow) (part : Part) : Shadow :=
  (shadow.map part.grown).touch ∅ part.filled

theorem blind_loadSegment
    (loaded : Pgdir × Option Word)
    (segment : Segment)
    (tracks : Tracks start ∅ shadow loaded.1 queue stored) :
    Blind (loadSegment loaded segment) queue stored fun next rest after =>
      let newsz := segment.vaddr + segment.memsz
      next.2 = some (asInt newsz) ∧
      Tracks start ∅
        (shadow.load
          { grown := grown (roundUp (loaded.2.getD segment.vaddr)) newsz
            filled := range segment.vaddr segment.memsz.toNat })
        next.1 rest after := by
  refine Blind.ite (fun _ => Blind.throw ()) fun sound => ?_
  refine Blind.ite (fun _ => Blind.throw ()) fun _ => ?_
  refine Blind.bind (Blind.bind (Blind.control (Blind.bind ?_)))
  refine (blind_allocuvmLoop _ _ _ tracks).mono ?_
  intro pgdir queue stored tracks
  refine Blind.pure (Blind.ite (fun _ => Blind.throw ()) fun _ => ?_)
  refine Blind.bind ((blind_storeBytes _ segment.data tracks).mono ?_)
  intro pgdir queue stored tracks
  refine Blind.bind ((blind_storeBytes _ (List.replicate _ 0) tracks).mono ?_)
  intro pgdir queue stored tracks
  refine Blind.pure ⟨rfl, ?_⟩
  rw [Shadow.touch_touch, List.length_replicate, ← range_add,
    Nat.add_sub_cancel' (by omega)] at tracks
  exact tracks

/-- The shadow of the segments of an image -/
def Image.loaded (image : Image) : Shadow :=
  (layout none image.segments).foldl Shadow.load ⟨∅, ∅⟩

theorem blind_loadSegments
    (image : Image)
    (tracks : Tracks start ∅ ⟨∅, ∅⟩ pgdir queue stored) :
    Blind (image.segments.foldlM loadSegment (pgdir, none)) queue stored
      fun next => Tracks start ∅ image.loaded next.1 := by
  -- What is still to come takes the shadow so far to that of the image.
  let Invariant (segments : List Segment) (next : Pgdir × Option Word)
      (rest : Queue) (after : Nat × Nat → Option UInt8) : Prop :=
    ∃ shadow,
      (layout next.2 segments).foldl Shadow.load shadow = image.loaded ∧
      Tracks start ∅ shadow next.1 rest after
  refine (Blind.foldlM Invariant ?_ ?_).mono ?_
  · rintro segment segments loaded queue stored ⟨shadow, total, tracks⟩
    refine (blind_loadSegment loaded segment tracks).mono ?_
    rintro ⟨pgdir, sz⟩ rest after ⟨rfl, tracks⟩
    exact ⟨_, total, tracks⟩
  · exact ⟨⟨∅, ∅⟩, rfl, tracks⟩
  · rintro next rest after ⟨shadow, rfl, tracks⟩
    exact tracks

/-! ### The shadow of the segments by the parts of the layout -/

theorem mem_fresh_loaded
    (parts : List Part)
    (index : Nat) :
    index ∈ (parts.foldl Shadow.load shadow).fresh ↔
      index ∈ shadow.fresh ∨
        ∃ part ∈ parts, index ∈ part.grown ∪ pagesOf part.filled := by
  induction parts generalizing shadow with
  | nil => simp
  | cons part parts ih =>
      rw [List.foldl_cons, ih, List.exists_mem_cons_iff, ← or_assoc]
      refine or_congr_left ?_
      simp [Shadow.load, Shadow.touch, Shadow.map, or_assoc]

theorem mem_filled_loaded
    (parts : List Part)
    (address : Nat) :
    address ∈ (parts.foldl Shadow.load shadow).filled ↔
      (address ∈ shadow.filled ∧
        ∀ part ∈ parts, address / pageSize ∉ part.grown) ∨
      ∃ before part after,
        parts = before ++ part :: after ∧
        address ∈ part.filled ∧
        ∀ later ∈ after, address / pageSize ∉ later.grown := by
  induction parts generalizing shadow with
  | nil => simp
  | cons part parts ih =>
      have here :
          address ∈ (shadow.load part).filled ↔
            (address ∈ shadow.filled ∧ address / pageSize ∉ part.grown) ∨
              address ∈ part.filled := by
        rfl
      rw [List.foldl_cons, ih, here, List.forall_mem_cons]
      constructor
      · rintro (⟨⟨member, kept⟩ | member, rest⟩ | later)
        · exact Or.inl ⟨member, kept, rest⟩
        · exact Or.inr ⟨[], part, parts, rfl, member, rest⟩
        · rcases later with ⟨before, last, after, rfl, member, rest⟩
          exact Or.inr ⟨part :: before, last, after, rfl, member, rest⟩
      · rintro (⟨member, kept, rest⟩ | ⟨before, last, after, split, found⟩)
        · exact Or.inl ⟨Or.inl ⟨member, kept⟩, rest⟩
        · cases before with
          | nil =>
              cases split
              exact Or.inl ⟨Or.inr found.1, found.2⟩
          | cons first before =>
              cases split
              exact Or.inr ⟨before, last, after, rfl, found⟩

/-! ## The stack -/

theorem range_eq_Ico
    {va : Word}
    {len : Nat}
    (below : va.toNat + len ≤ userTop) :
    range va len = Set.Ico va.toNat (va.toNat + len) := by
  have here :
      ∀ i < len, location (va + BitVec.ofNat 64 i) = va.toNat + i := by
    intro i within
    rw [location, BitVec.toNat_add, BitVec.toNat_ofNat]
    unfold userTop at below
    omega
  ext address
  rw [Set.mem_Ico]
  constructor
  · rintro ⟨i, within, found⟩
    rw [here i within] at found
    omega
  · rintro ⟨above, within⟩
    have split : va.toNat + (address - va.toNat) = address := by omega
    refine ⟨address - va.toNat, by omega, ?_⟩
    rw [here _ (by omega), split]

/-- The bytes are copied right below what has been touched. -/
theorem blind_copyout_below
    {va : Word}
    {bytes : List UInt8}
    {sp : Nat}
    (here : va.toNat + bytes.length = sp)
    (below : sp ≤ userTop)
    (tracks :
      Tracks start ∅ (shadow.touch ∅ (Set.Ico sp userTop)) pgdir queue stored) :
    Blind (copyout pgdir va bytes) queue stored
      (Tracks start ∅ (shadow.touch ∅ (Set.Ico va.toNat userTop))) := by
  have within : ¬ userTop < (va + BitVec.ofNat 64 bytes.length).toNat := by
    rw [BitVec.toNat_add, BitVec.toNat_ofNat]
    unfold userTop at *
    omega
  have joined :
      Set.Ico sp userTop ∪ Set.Ico va.toNat sp =
        Set.Ico va.toNat userTop := by
    rw [Set.union_comm, Set.Ico_union_Ico_eq_Ico (by omega) below]
  refine (blind_copyout va bytes tracks).mono ?_
  intro next rest after copied
  rw [if_neg within, range_eq_Ico (by omega), here, Shadow.touch_touch,
    joined] at copied
  exact copied

@[simp]
theorem pushed_cons (text : Text) (strings : List Text) :
    pushed (text :: strings) = text.stored.length + pushed strings := by
  rw [pushed, List.map_cons, List.sum_cons]
  rfl

theorem blind_pushStrings
    (strings : List Text)
    {sp : Word}
    (enough : pushed strings ≤ sp.toNat)
    (below : sp.toNat ≤ userTop)
    (tracks :
      Tracks start ∅ (shadow.touch ∅ (Set.Ico sp.toNat userTop))
        pgdir queue stored) :
    Blind (strings.foldlM pushString (pgdir, sp)) queue stored
      fun next rest after =>
        next.2.toNat =
          sp.toNat - pushed strings ∧
        Tracks start ∅ (shadow.touch ∅ (Set.Ico next.2.toNat userTop))
          next.1 rest after := by
  induction strings generalizing pgdir queue stored sp with
  | nil => exact Blind.pure ⟨rfl, tracks⟩
  | cons text strings ih =>
      rw [pushed_cons] at enough
      have word : sp.toNat < 2 ^ 64 := sp.isLt
      have moved :
          (sp - BitVec.ofNat 64 text.stored.length).toNat =
            sp.toNat - text.stored.length := by
        rw [BitVec.toNat_sub, BitVec.toNat_ofNat]
        omega
      have here :
          (sp - BitVec.ofNat 64 text.stored.length).toNat +
            text.stored.length = sp.toNat := by
        omega
      rw [List.foldlM_cons]
      refine Blind.bind (Blind.bind ?_)
      refine (blind_copyout_below here below tracks).mono ?_
      intro pgdir queue stored tracks
      refine Blind.pure ((ih ?_ ?_ tracks).mono ?_)
      · show _ ≤ (sp - BitVec.ofNat 64 text.stored.length).toNat
        omega
      · show (sp - BitVec.ofNat 64 text.stored.length).toNat ≤ userTop
        omega
      · rintro next rest after ⟨left, tracks⟩
        refine ⟨?_, tracks⟩
        rw [left, pushed_cons]
        show (sp - BitVec.ofNat 64 text.stored.length).toNat - _ = _
        omega

/-- Bytes are stored where everything has been touched. -/
theorem blind_storeBytes_within
    {touched : Set Nat}
    {va : Word}
    {bytes : List UInt8}
    (within : range va bytes.length ⊆ touched)
    (tracks :
      Tracks start ∅ (shadow.touch ∅ touched) pgdir queue stored) :
    Blind (storeBytes pgdir va bytes) queue stored
      (Tracks start ∅ (shadow.touch ∅ touched)) := by
  refine (blind_storeBytes va bytes tracks).mono ?_
  intro next rest after again
  rwa [Shadow.touch_again shadow within] at again

theorem length_wordBytes (word : Word) : (wordBytes word).length = 8 :=
  List.length_ofFn

theorem blind_storePointers
    {touched : Set Nat}
    {array : Word}
    {strings : List Text}
    {found : Pgdir × Word}
    (within :
      ∀ i < strings.length,
        range (array + BitVec.ofNat 64 (8 * i)) 8 ⊆ touched)
    (tracks :
      Tracks start ∅ (shadow.touch ∅ touched) found.1 queue stored) :
    Blind (storePointers array strings found) queue stored fun next =>
      Tracks start ∅ (shadow.touch ∅ touched) next.1 := by
  let Invariant (items : List (Text × Nat)) (next : Pgdir × Word)
      (rest : Queue) (after : Nat × Nat → Option UInt8) : Prop :=
    (∀ item ∈ items, item.2 < strings.length) ∧
    Tracks start ∅ (shadow.touch ∅ touched) next.1 rest after
  refine (Blind.foldlM Invariant ?_ ?_).mono fun _ _ _ last => last.2
  · rintro ⟨text, i⟩ items next queue stored ⟨below, tracks⟩
    have here : range (array + BitVec.ofNat 64 (8 * i))
        (wordBytes next.2).length ⊆ touched := by
      rw [length_wordBytes]
      exact within i (below _ List.mem_cons_self)
    refine Blind.bind ((blind_storeBytes_within here tracks).mono ?_)
    intro pgdir queue stored tracks
    refine Blind.pure ⟨?_, tracks⟩
    exact fun item member => below item (List.mem_cons_of_mem _ member)
  · refine ⟨?_, tracks⟩
    rintro ⟨text, i⟩ member
    exact (List.mem_zipIdx (List.mem_reverse.mp member)).2.1.trans_eq
      (Nat.zero_add _)

/-! ### The addresses of the stack -/

theorem Text.length_stored_le (text : Text) :
    text.stored.length ≤ 0x80000000 := by
  have short : text.bytes.length < 0x80000000 := text.short
  rw [stored, List.length_append]
  exact short

theorem sum_stored_le (strings : List Text) :
    pushed strings ≤
      strings.length * 0x80000000 := by
  induction strings with
  | nil => exact Nat.zero_le _
  | cons text strings ih =>
      have first := text.length_stored_le
      rw [pushed_cons, List.length_cons, Nat.succ_mul]
      omega

/-- Rounding down to a multiple of a constant -/
theorem toNat_div_mul (word unit : Word) :
    (word / unit * unit).toNat = word.toNat / unit.toNat * unit.toNat := by
  rw [BitVec.toNat_mul, BitVec.toNat_udiv]
  refine Nat.mod_eq_of_lt ((Nat.div_mul_le_self _ _).trans_lt word.isLt)

/-- The words of the new stack, when `sp` is the end of the strings -/
theorem toNat_stackPointer
    {sp : Word}
    {count : Nat}
    (room : (count + 4) * 8 ≤ sp.toNat) :
    (stackPointer sp count).toNat = (sp.toNat - (count + 4) * 8) / 16 * 16 := by
  have word : sp.toNat < 2 ^ 64 := sp.isLt
  have lowered :
      (sp - BitVec.ofNat 64 ((count + 4) * 8)).toNat =
        sp.toNat - (count + 4) * 8 := by
    rw [BitVec.toNat_sub, BitVec.toNat_ofNat]
    omega
  exact (toNat_div_mul _ 16).trans (by rw [lowered]; rfl)

theorem toNat_stackSize
    {sp : Word}
    (below : sp.toNat ≤ userTop) :
    (stackSize sp).toNat = (userTop - sp.toNat + 40959) / 40960 * 40960 := by
  have top_eq : (BitVec.ofNat 64 userTop : Word).toNat = userTop := rfl
  have constant : (40959 : Word).toNat = 40959 := rfl
  have large : userTop = 0x0001000000000000 := rfl
  have raised :
      (BitVec.ofNat 64 userTop - sp + 40959).toNat =
        userTop - sp.toNat + 40959 := by
    rw [BitVec.toNat_add, BitVec.toNat_sub, top_eq, constant]
    omega
  exact (toNat_div_mul _ 40960).trans (by rw [raised]; rfl)

/-- A slot of the pointers above the new stack pointer -/
theorem range_slot
    {newsp : Word}
    {offset size : Nat}
    (within : offset + 8 ≤ size)
    (room : newsp.toNat + size ≤ userTop) :
    range (newsp + BitVec.ofNat 64 offset) 8 ⊆
      Set.Ico newsp.toNat userTop := by
  have here :
      (newsp + BitVec.ofNat 64 offset).toNat = newsp.toNat + offset := by
    rw [BitVec.toNat_add, BitVec.toNat_ofNat]
    unfold userTop at room
    omega
  rw [range_eq_Ico (by omega), here]
  exact Set.Ico_subset_Ico (by omega) (by omega)

/-- All of the stack has been touched when it is finished. -/
theorem blind_finishStack
    {sp newsp : Word}
    {argv envp : List Text}
    (room :
      newsp.toNat + (envp.length + argv.length + 4) * 8 ≤ sp.toNat)
    (below : sp.toNat ≤ userTop)
    (high : 2 ^ 40 ≤ newsp.toNat)
    (tracks :
      Tracks start ∅ (shadow.touch ∅ (Set.Ico sp.toNat userTop))
        pgdir queue stored) :
    Blind (finishStack pgdir sp newsp argv envp) queue stored
      (Tracks start ∅
        (shadow.touch ∅
          (Set.Ico (BitVec.ofNat 64 userTop - stackSize newsp).toNat
            userTop))) := by
  have large : userTop = 0x0001000000000000 := rfl
  have top_eq : (BitVec.ofNat 64 userTop : Word).toNat = userTop := rfl
  have stksz := toNat_stackSize (by omega : newsp.toNat ≤ userTop)
  have slots : newsp.toNat + (envp.length + argv.length + 4) * 8 ≤ userTop :=
    room.trans below
  refine Blind.bind ((blind_copyout_below ?_ below tracks).mono ?_)
  · rw [List.length_replicate, BitVec.toNat_sub]
    omega
  intro pgdir queue stored tracks
  refine Blind.bind ((blind_storePointers ?_ tracks).mono ?_)
  · intro i within
    have place :
        newsp + 8 + BitVec.ofNat 64 ((argv.length + 1) * 8) +
            BitVec.ofNat 64 (8 * i) =
          newsp + BitVec.ofNat 64 (8 + (argv.length + 1) * 8 + 8 * i) := by
      rw [BitVec.ofNat_add, BitVec.ofNat_add, ← BitVec.add_assoc,
        ← BitVec.add_assoc]
      rfl
    rw [place]
    exact range_slot (by omega) slots
  intro found queue stored tracks
  refine Blind.bind ((blind_storePointers ?_ tracks).mono ?_)
  · intro i within
    have place :
        newsp + 8 + BitVec.ofNat 64 (8 * i) =
          newsp + BitVec.ofNat 64 (8 + 8 * i) := by
      rw [BitVec.ofNat_add, ← BitVec.add_assoc]
      rfl
    rw [place]
    exact range_slot (by omega) slots
  intro found queue stored tracks
  refine Blind.bind ((blind_storeBytes_within ?_ tracks).mono ?_)
  · have first := range_slot (by omega : 0 + 8 ≤ _) slots
    rwa [BitVec.add_zero, ← length_wordBytes] at first
  intro pgdir queue stored tracks
  refine Blind.bind ((blind_copyout_below ?_ (by omega) tracks).mono ?_)
  · rw [List.length_replicate, BitVec.toNat_sub, BitVec.toNat_sub,
      BitVec.toNat_sub, stksz, top_eq]
    omega
  intro pgdir queue stored tracks
  exact Blind.ite (fun _ => Blind.throw ()) fun _ => Blind.pure tracks

theorem blind_makeStack
    {argv envp : List Text}
    (argc : argv.length ≤ maxArg)
    (envc : envp.length ≤ maxArg)
    (tracks : Tracks start ∅ shadow pgdir queue stored) :
    Blind (makeStack pgdir argv envp) queue stored
      (Tracks start ∅
        (shadow.touch ∅ (Set.Ico (stackBottom argv envp) userTop))) := by
  have argv_le := sum_stored_le argv
  have envp_le := sum_stored_le envp
  have large : userTop = 0x0001000000000000 := rfl
  have most : maxArg = 10 := rfl
  have top_eq : (BitVec.ofNat 64 userTop : Word).toNat = userTop := rfl
  have nothing :
      shadow.touch ∅ (Set.Ico (BitVec.ofNat 64 userTop : Word).toNat userTop) =
        shadow := by
    rw [top_eq, Set.Ico_self, Shadow.touch_empty]
  rw [← nothing] at tracks
  have enough : pushed argv ≤ (BitVec.ofNat 64 userTop : Word).toNat := by
    omega
  refine Blind.bind ((blind_pushStrings argv enough le_rfl tracks).mono ?_)
  rintro ⟨pgdir, middle⟩ queue stored ⟨after_argv, tracks⟩
  change middle.toNat = userTop - pushed argv at after_argv
  have enough : pushed envp ≤ middle.toNat := by omega
  have below : middle.toNat ≤ userTop := by omega
  refine Blind.bind ((blind_pushStrings envp enough below tracks).mono ?_)
  rintro ⟨pgdir, sp⟩ queue stored ⟨after_envp, tracks⟩
  change sp.toNat = middle.toNat - pushed envp at after_envp
  have here : sp.toNat = userTop - (pushed argv + pushed envp) := by omega
  have newsp_eq :
      (stackPointer sp (envp.length + argv.length)).toNat =
        newSp argv envp := by
    rw [toNat_stackPointer (by omega), here]
    rfl
  have bottom_eq :
      (BitVec.ofNat 64 userTop -
        stackSize (stackPointer sp (envp.length + argv.length))).toNat =
        stackBottom argv envp := by
    rw [BitVec.toNat_sub, top_eq, toNat_stackSize, newsp_eq, stackBottom]
    · unfold newSp
      omega
    · rw [newsp_eq, newSp]
      omega
  rw [← bottom_eq]
  refine blind_finishStack ?_ ?_ ?_ tracks
  · rw [newsp_eq, newSp, here]
    omega
  · show sp.toNat ≤ userTop
    omega
  · rw [newsp_eq, newSp]
    omega

end Loading

/-! ## The calls -/

section Calls

variable
    {memory : Memory}
    {pgdir : Pgdir}

/-- Everything which a process can read in the new pages has been filled. -/
def Shadow.Full (shadow : Shadow) : Prop :=
  ∀ address < userTop,
    address / pageSize ∈ shadow.fresh → address ∈ shadow.filled

/-- The call has been followed, and leaves no stale byte just if it is clean. -/
def Followed
    (memory : Memory)
    (pgdir : Pgdir)
    (call : Call)
    (new : Pgdir)
    (rest : Queue)
    (after : Nat × Nat → Option UInt8) : Prop :=
  ∃ old shadow,
    Tracks memory.control.pages old shadow new rest after ∧
    (shadow.Full ↔ call.Clean memory pgdir)

/-- The pages which the process had before -/
def oldPages (memory : Memory) (pgdir : Pgdir) : Set Nat :=
  {index |
    ∃ page ∉ memory.control.pages, pgdir.entry index = .page page}

theorem Separate.tracks
    (separate : Separate memory pgdir) :
    Tracks memory.control.pages (oldPages memory pgdir) ⟨∅, ∅⟩
      pgdir memory.control fun _ => none := by
  constructor
  · exact separate.nodup
  · exact fun _ member => member
  · exact separate.apart
  · exact fun _ _ _ => rfl
  · exact fun index _ page member leads =>
      absurd member (separate.apart index page leads)
  · exact fun _ => Iff.rfl
  · intro index
    constructor
    · exact fun member => nomatch member
    · rintro ⟨page, member, leads⟩
      exact absurd member (separate.apart index page leads)
  · exact fun _ member => nomatch member
  · exact fun address page member leads =>
      absurd member (separate.apart _ page leads)

/-- A directory without entries -/
theorem Tracks.of_empty
    {old : Set Nat}
    {shadow : Shadow}
    {new : Pgdir}
    {start : List Nat}
    {queue : Queue}
    {stored : Nat × Nat → Option UInt8}
    (tracks : Tracks start old shadow pgdir queue stored)
    (empty : ∀ index, new.entry index = .zero) :
    Tracks start ∅ ⟨∅, ∅⟩ new queue stored := by
  have unmapped : ∀ index page, new.entry index ≠ .page page := by
    intro index page leads
    rw [empty index] at leads
    cases leads
  constructor
  · exact tracks.nodup
  · exact tracks.started
  · exact fun index page leads => absurd leads (unmapped index page)
  · exact tracks.unwritten
  · exact fun index _ page _ leads => absurd leads (unmapped index page)
  · intro index
    constructor
    · exact fun member => nomatch member
    · rintro ⟨page, _, leads⟩
      exact absurd leads (unmapped index page)
  · intro index
    constructor
    · exact fun member => nomatch member
    · rintro ⟨page, _, leads⟩
      exact absurd leads (unmapped index page)
  · exact fun _ member => nomatch member
  · exact fun address page _ leads => absurd leads (unmapped _ page)

theorem full_empty : Shadow.Full ⟨∅, ∅⟩ :=
  fun _ _ member => nomatch member

theorem blind_pgfault
    (addr : Word)
    (separate : Separate memory pgdir) :
    Blind ((Call.pgfault addr).run pgdir) memory.control (fun _ => none)
      (Followed memory pgdir (.pgfault addr)) := by
  refine (blind_pgfaultHandler addr separate.tracks).mono ?_
  rintro new rest after
    (⟨mapped, tracks, _⟩ | ⟨_, few, tracks, _⟩ | ⟨zero, many, tracks, _⟩)
  · exact ⟨_, _, tracks, fun _ => Or.inl mapped, fun _ => full_empty⟩
  · exact ⟨_, _, tracks, fun _ => Or.inr few, fun _ => full_empty⟩
  · refine ⟨_, _, tracks, ?_, ?_⟩
    · intro full
      have below : location addr < userTop :=
        Nat.mod_lt _ (by decide)
      exact absurd (full _ below (Or.inr rfl)).1 (Set.notMem_empty _)
    · rintro (mapped | few)
      · exact absurd zero mapped
      · exact absurd few many

theorem blind_copyoutCall
    (va : Word)
    (bytes : List UInt8)
    (separate : Separate memory pgdir) :
    Blind ((Call.copyout va bytes).run pgdir) memory.control (fun _ => none)
      (Followed memory pgdir (.copyout va bytes)) := by
  refine (blind_copyout va bytes separate.tracks).mono ?_
  intro new rest after tracks
  split at tracks
  · rename_i beyond
    exact ⟨_, _, tracks, fun _ => Or.inl beyond, fun _ => full_empty⟩
  · rename_i within
    refine ⟨_, _, tracks, ?_, ?_⟩
    · intro full
      refine Or.inr fun address touched unmapped => ?_
      have below : address < userTop := by
        rcases touched with ⟨other, ⟨i, _, rfl⟩, same⟩
        change location _ / pageSize = address / pageSize at same
        unfold location pageSize at same
        unfold userTop
        omega
      have new : address / pageSize ∉ oldPages memory pgdir := by
        rintro ⟨page, _, leads⟩
        exact unmapped page leads
      exact
        (full address below (Or.inr ⟨touched, new⟩)).resolve_left
          (Set.notMem_empty _)
    · rintro (beyond | covered) address _ (fresh | ⟨touched, new⟩)
      · exact absurd beyond within
      · exact absurd beyond within
      · exact absurd fresh (Set.notMem_empty _)
      · refine Or.inr (covered address touched fun page leads => new ?_)
        exact ⟨page, separate.apart _ page leads, leads⟩

/-- The stack has been filled, so only the segments matter. -/
theorem full_stack_iff
    (shadow : Shadow)
    (argv envp : List Text) :
    (shadow.touch ∅ (Set.Ico (stackBottom argv envp) userTop)).Full ↔
      ∀ address < stackBottom argv envp,
        address / pageSize ∈ shadow.fresh → address ∈ shadow.filled := by
  have aligned : stackBottom argv envp % pageSize = 0 := by
    unfold stackBottom userTop pageSize
    omega
  have below : stackBottom argv envp ≤ userTop := Nat.sub_le _ _
  constructor
  · intro full address early fresh
    have filled := full address (early.trans_le below) (Or.inl fresh)
    exact filled.resolve_right fun member => Nat.not_le_of_lt early member.1
  · intro covered address within fresh
    by_cases early : address < stackBottom argv envp
    · refine Or.inl (covered address early (fresh.resolve_right ?_))
      rintro ⟨⟨other, ⟨above, _⟩, same⟩, _⟩
      change other / pageSize = address / pageSize at same
      unfold pageSize at *
      omega
    · exact Or.inr ⟨Nat.le_of_not_lt early, within⟩

theorem blind_execve
    (image : Option Image)
    (separate : Separate memory pgdir) :
    Blind ((Call.execve image).run pgdir) memory.control (fun _ => none)
      (Followed memory pgdir (.execve image)) := by
  refine Blind.bind (Blind.bind ((blind_newTable separate.tracks).mono ?_))
  intro _ queue stored added
  refine Blind.pure ?_
  cases image with
  | none =>
      refine Blind.pure ⟨_, _, added.tracks, ?_⟩
      exact iff_of_true full_empty trivial
  | some image =>
      have empty :
          Tracks memory.control.pages ∅ ⟨∅, ∅⟩
            { table := fun level _ => level = 0, entry := fun _ => .zero }
            queue stored :=
        added.tracks.of_empty fun _ => rfl
      refine Blind.bind ((blind_loadSegments image empty).mono ?_)
      intro loaded queue stored tracks
      refine (blind_makeStack ?_ ?_ tracks).mono ?_
      · exact List.length_take_le _ _
      · exact List.length_take_le _ _
      · intro new rest after tracks
        refine ⟨_, _, tracks, ?_⟩
        rw [full_stack_iff]
        refine forall₂_congr fun address _ => ?_
        rw [Image.loaded, mem_fresh_loaded, mem_filled_loaded]
        simp

theorem blind_run
    (call : Call)
    (separate : Separate memory pgdir) :
    Blind (call.run pgdir) memory.control (fun _ => none)
      (Followed memory pgdir call) := by
  cases call with
  | pgfault addr => exact blind_pgfault addr separate
  | execve image => exact blind_execve image separate
  | copyout va bytes => exact blind_copyoutCall va bytes separate

instance nontrivialByte : Nontrivial UInt8 :=
  ⟨0, 1, by decide⟩

end Calls

/-! ## A page which is not cleared -/

/-- A memory with a byte left in the free page 7 -/
def leftover (byte : UInt8) : Memory where
  control :=
    { pages := List.range' 7 2000
      kallocPageCnt := 4
      pagenum := 2004 }
  content := fun location => if location.1 = 7 then byte else 0

/-- A directory with the tables for the lowest addresses and no pages -/
def lowTables : Pgdir where
  table := fun _ index => index = 0
  entry := fun _ => .zero

theorem separate_leftover (byte : UInt8) :
    Separate (leftover byte) lowTables where
  nodup := List.nodup_range'
  apart := fun _ _ leads => nomatch leads

end FudanOS.Kernel.PageBytes
