import FudanOS.Fs.Defines

/-!
# The eviction loop of the block cache

A miss of `cache_acquire` walks the list of cached blocks from its tail on and
drops idle blocks as long as too many are cached.  Which entries are idle is a
parameter, so that the loop serves the sequential and the interleaved model of
the cache.
-/

namespace FudanOS.Fs.Eviction

open FudanOS.Fs.Defines

variable {Entry : Type*}

/-- The loop, over the list from its tail on. -/
def evictLoop (idle : Entry → Bool) : Nat → List Entry → Nat × List Entry
  | blockNum, [] => (blockNum, [])
  | blockNum, curr :: rest =>
      if blockNum < evictionThreshold then
        (blockNum, curr :: rest)
      else if idle curr then
        evictLoop idle (blockNum - 1) rest
      else
        ((evictLoop idle blockNum rest).1,
          curr :: (evictLoop idle blockNum rest).2)

/-- What a miss leaves of the list. -/
def evict (idle : Entry → Bool) (blockNum : Nat) (head : List Entry) :
    Nat × List Entry :=
  if evictionThreshold ≤ blockNum then
    ((evictLoop idle blockNum head.reverse).1,
      (evictLoop idle blockNum head.reverse).2.reverse)
  else
    (blockNum, head)

/-- What the eviction loop leaves of a list. -/
structure Evicted
    (idle : Entry → Bool)
    (blockNum : Nat)
    (entries : List Entry)
    (result : Nat × List Entry) : Prop where
  sublist : result.2.Sublist entries
  count : result.1 + entries.length = blockNum + result.2.length
  kept : ∀ entry ∈ entries, entry ∈ result.2 ∨ idle entry = true

theorem evictLoop_spec
    (idle : Entry → Bool)
    (blockNum : Nat)
    (entries : List Entry) :
    Evicted idle blockNum entries (evictLoop idle blockNum entries) := by
  induction entries generalizing blockNum with
  | nil => exact ⟨List.Sublist.refl _, rfl, by simp⟩
  | cons curr rest ih =>
      rw [evictLoop]
      split_ifs with few isIdle
      · exact ⟨List.Sublist.refl _, rfl, fun _ member => Or.inl member⟩
      · have later := ih (blockNum - 1)
        refine ⟨later.sublist.cons _, ?_, ?_⟩
        · have count := later.count
          simp only [evictionThreshold] at few
          simp only [List.length_cons]
          omega
        · intro entry member
          rcases List.mem_cons.mp member with rfl | tail
          · exact Or.inr isIdle
          · exact later.kept entry tail
      · have later := ih blockNum
        refine ⟨later.sublist.cons_cons _, ?_, ?_⟩
        · have count := later.count
          simp only [List.length_cons]
          omega
        · intro entry member
          rcases List.mem_cons.mp member with rfl | tail
          · exact Or.inl List.mem_cons_self
          · rcases later.kept entry tail with present | dropped
            · exact Or.inl (List.mem_cons_of_mem _ present)
            · exact Or.inr dropped

theorem evict_spec
    (idle : Entry → Bool)
    (blockNum : Nat)
    (head : List Entry) :
    Evicted idle blockNum head (evict idle blockNum head) := by
  unfold evict
  split_ifs
  · have loop := evictLoop_spec idle blockNum head.reverse
    refine ⟨?_, ?_, ?_⟩
    · simpa using loop.sublist.reverse
    · simpa using loop.count
    · intro entry member
      simpa using loop.kept entry (List.mem_reverse.mpr member)
  · exact ⟨List.Sublist.refl _, rfl, fun _ member => Or.inl member⟩

/-- Below the threshold nothing is evicted. -/
theorem evict_few
    (idle : Entry → Bool)
    {blockNum : Nat}
    (few : blockNum < evictionThreshold)
    (head : List Entry) :
    evict idle blockNum head = (blockNum, head) := by
  rw [evict, if_neg (Nat.not_le_of_lt few)]

/-- The entries which the loop looks at before the given one. -/
def older [DecidableEq Entry] (head : List Entry) (entry : Entry) :
    List Entry :=
  head.reverse.takeWhile fun other => decide (other ≠ entry)

/-- An entry survives when enough idle ones come before it. -/
theorem evictLoop_keeps
    (idle : Entry → Bool)
    {blockNum : Nat}
    {front back : List Entry}
    {entry : Entry}
    (enough : blockNum < evictionThreshold + front.countP idle) :
    entry ∈ (evictLoop idle blockNum (front ++ entry :: back)).2 := by
  induction front generalizing blockNum with
  | nil =>
      have few : blockNum < evictionThreshold := by simpa using enough
      simp [evictLoop, few]
  | cons curr rest ih =>
      rw [List.cons_append, evictLoop]
      split_ifs with few isIdle
      · simp
      · apply ih
        rw [List.countP_cons_of_pos isIdle] at enough
        simp only [evictionThreshold] at few enough ⊢
        omega
      · rw [List.countP_cons_of_neg isIdle] at enough
        exact List.mem_cons_of_mem _ (ih enough)

theorem evict_keeps
    [DecidableEq Entry]
    (idle : Entry → Bool)
    {blockNum : Nat}
    {head : List Entry}
    {entry : Entry}
    (member : entry ∈ head)
    (enough :
      blockNum < evictionThreshold + (older head entry).countP idle) :
    entry ∈ (evict idle blockNum head).2 := by
  unfold evict
  split_ifs
  · rcases List.eq_append_cons_of_mem (List.mem_reverse.mpr member) with
      ⟨front, back, split, first⟩
    have before : older head entry = front := by
      rw [older, split, List.takeWhile_append_of_pos]
      · simp
      · intro other present
        simpa using fun same : other = entry => first (same ▸ present)
    rw [before] at enough
    rw [split, List.mem_reverse]
    exact evictLoop_keeps idle enough
  · exact member

/-! ## Which entries are dropped -/

/--
The entries which a miss drops, the last of the list first: as many idle ones
as it takes to get below the threshold, or all of them.
-/
def victims (idle : Entry → Bool) (blockNum : Nat) (head : List Entry) :
    List Entry :=
  (head.reverse.filter idle).take (blockNum + 1 - evictionThreshold)

section Victims

variable
    {Key : Type*}
    [DecidableEq Key]

/-- The entries without those whose key is among the given ones. -/
def without (key : Entry → Key) (dropped : List Key) (head : List Entry) :
    List Entry :=
  head.filter fun entry => decide (key entry ∉ dropped)

theorem without_nil
    (key : Entry → Key)
    (head : List Entry) :
    without key [] head = head := by
  simp [without]

/-- The key of an entry in front of the list is not that of a later one. -/
theorem without_cons_of_notMem
    (key : Entry → Key)
    {curr : Entry}
    {rest : List Entry}
    (first : key curr ∉ rest.map key)
    (dropped : List Key) :
    without key (key curr :: dropped) rest = without key dropped rest := by
  apply List.filter_congr
  intro entry member
  have different : key entry ≠ key curr := by
    intro same
    exact first (same ▸ List.mem_map_of_mem member)
  simp [different]

theorem without_cons
    (key : Entry → Key)
    {curr : Entry}
    (rest : List Entry)
    {dropped : List Key}
    (stays : key curr ∉ dropped) :
    without key dropped (curr :: rest) = curr :: without key dropped rest := by
  simp [without, stays]

/-- The loop drops the first idle entries, as many as it needs. -/
theorem evictLoop_eq
    (idle : Entry → Bool)
    (key : Entry → Key)
    {blockNum : Nat}
    {entries : List Entry}
    (distinct : (entries.map key).Nodup) :
    (evictLoop idle blockNum entries).2 =
      without key
        (((entries.filter idle).take
          (blockNum + 1 - evictionThreshold)).map key)
        entries := by
  induction entries generalizing blockNum with
  | nil => rfl
  | cons curr rest ih =>
      rw [List.map_cons, List.nodup_cons] at distinct
      rw [evictLoop]
      split_ifs with few isIdle
      · have none : blockNum + 1 - evictionThreshold = 0 :=
          Nat.sub_eq_zero_of_le few
        rw [none, List.take_zero, List.map_nil, without_nil]
      · have one :
            blockNum + 1 - evictionThreshold =
              blockNum - 1 + 1 - evictionThreshold + 1 := by
          simp only [evictionThreshold] at few ⊢
          omega
        have gone :
            without key
                (key curr ::
                  ((rest.filter idle).take
                    (blockNum - 1 + 1 - evictionThreshold)).map key)
                (curr :: rest) =
              without key
                (((rest.filter idle).take
                  (blockNum - 1 + 1 - evictionThreshold)).map key) rest := by
          rw [← without_cons_of_notMem key distinct.1]
          simp [without]
        rw [List.filter_cons_of_pos isIdle, one, List.take_succ_cons,
          List.map_cons, gone]
        exact ih distinct.2
      · have stays :
            key curr ∉
              ((rest.filter idle).take
                (blockNum + 1 - evictionThreshold)).map key := by
          intro dropped
          refine distinct.1 ?_
          exact (((List.take_sublist _ _).trans
            List.filter_sublist).map key).subset dropped
        rw [List.filter_cons_of_neg isIdle, without_cons key rest stays,
          ih distinct.2]

/-- A miss drops the victims and nothing else. -/
theorem evict_eq
    (idle : Entry → Bool)
    (key : Entry → Key)
    {blockNum : Nat}
    {head : List Entry}
    (distinct : (head.map key).Nodup) :
    (evict idle blockNum head).2 =
      without key ((victims idle blockNum head).map key) head := by
  unfold evict
  split_ifs with many
  · dsimp only
    rw [evictLoop_eq idle key]
    · unfold without
      rw [List.filter_reverse, List.reverse_reverse]
      rfl
    · rw [List.map_reverse]
      exact List.nodup_reverse.mpr distinct
  · have none : blockNum + 1 - evictionThreshold = 0 :=
      Nat.sub_eq_zero_of_le (Nat.lt_of_not_le many)
    rw [victims, none, List.take_zero, List.map_nil, without_nil]

theorem evictLoop_count
    (idle : Entry → Bool)
    (blockNum : Nat)
    (entries : List Entry) :
    (evictLoop idle blockNum entries).1 +
        ((entries.filter idle).take
          (blockNum + 1 - evictionThreshold)).length =
      blockNum := by
  induction entries generalizing blockNum with
  | nil => simp [evictLoop]
  | cons curr rest ih =>
      rw [evictLoop]
      split_ifs with few isIdle
      · have none : blockNum + 1 - evictionThreshold = 0 :=
          Nat.sub_eq_zero_of_le few
        simp [none]
      · have later := ih (blockNum - 1)
        simp only [evictionThreshold] at few later ⊢
        have one : blockNum + 1 - 20 = blockNum - 1 + 1 - 20 + 1 := by omega
        rw [List.filter_cons_of_pos isIdle, one, List.take_succ_cons,
          List.length_cons]
        omega
      · rw [List.filter_cons_of_neg isIdle]
        exact ih blockNum

theorem evict_count
    (idle : Entry → Bool)
    (blockNum : Nat)
    (head : List Entry) :
    (evict idle blockNum head).1 + (victims idle blockNum head).length =
      blockNum := by
  unfold evict
  split_ifs with many
  · exact evictLoop_count idle blockNum head.reverse
  · have none : blockNum + 1 - evictionThreshold = 0 :=
      Nat.sub_eq_zero_of_le (Nat.lt_of_not_le many)
    rw [victims, none, List.take_zero]
    rfl

/-- What is left is below the threshold, or nothing of it is idle. -/
theorem evict_bound
    (idle : Entry → Bool)
    {blockNum : Nat}
    {head : List Entry}
    (counted : head.length = blockNum) :
    (evict idle blockNum head).1 + 1 ≤
      max evictionThreshold
        (1 + head.countP fun entry => !idle entry) := by
  have left := evict_count idle blockNum head
  have split :
      head.length =
        head.countP idle + head.countP fun entry => !idle entry := by
    simpa using List.length_eq_countP_add_countP idle (l := head)
  have dropped :
      (victims idle blockNum head).length =
        min (blockNum + 1 - evictionThreshold) (head.countP idle) := by
    rw [victims, List.length_take, List.filter_reverse, List.length_reverse,
      ← List.countP_eq_length_filter]
  simp only [evictionThreshold] at dropped ⊢
  omega

end Victims

end FudanOS.Fs.Eviction
