import Mathlib.Data.List.Basic

/-!
# Exact ownership of numbered resources

Live keys store the number of the resource which they own, or zero.  The
ownership is exact when no resource is stored twice, every stored number is
one of the resources in question, and exactly the stored ones are marked as
used.  The rules say how it survives an allocation into an empty key, the
release of what a set of keys owns, and a change of the live keys.
-/

namespace FudanOS.Library.Ownership

variable {Key : Type*}

/-- Every resource has at most one owner, and a mark exactly if it has one. -/
structure Exact
    (live : Key → Prop)
    (stored : Key → Nat)
    (resource : Nat → Prop)
    (used : Nat → Bool) : Prop where
  positive : ¬ resource 0
  distinct :
    ∀ left right, live left → live right →
      stored left = stored right → stored left ≠ 0 → left = right
  inside : ∀ key, live key → stored key ≠ 0 → resource (stored key)
  marked :
    ∀ number, resource number →
      (used number = true ↔ ∃ key, live key ∧ stored key = number)

namespace Exact

variable
    {live : Key → Prop}
    {stored stored' : Key → Nat}
    {resource : Nat → Prop}
    {used : Nat → Bool}

theorem used_of_stored
    (exact : Exact live stored resource used)
    {key : Key}
    (isLive : live key)
    (present : stored key ≠ 0) :
    used (stored key) = true := by
  exact (exact.marked _ (exact.inside key isLive present)).mpr
    ⟨key, isLive, rfl⟩

/-- An unmarked resource goes to a live key which stores nothing. -/
theorem attach
    (exact : Exact live stored resource used)
    {owner : Key}
    {number : Nat}
    (isLive : live owner)
    (empty : stored owner = 0)
    (isResource : resource number)
    (free : used number = false)
    (atOwner : stored' owner = number)
    (others : ∀ key, live key → key ≠ owner → stored' key = stored key) :
    Exact live stored' resource (Function.update used number true) := by
  have unowned : ∀ key, live key → stored key ≠ number := by
    intro key keyLive same
    have marked := (exact.marked number isResource).mpr ⟨key, keyLive, same⟩
    simp [free] at marked
  constructor
  · exact exact.positive
  · intro left right leftLive rightLive same present
    by_cases leftOwner : left = owner
    · subst leftOwner
      by_contra different
      have rightSame := others right rightLive (Ne.symm different)
      rw [atOwner, rightSame] at same
      exact unowned right rightLive same.symm
    · have leftSame := others left leftLive leftOwner
      by_cases rightOwner : right = owner
      · subst rightOwner
        rw [atOwner, leftSame] at same
        exact absurd same (unowned left leftLive)
      · rw [leftSame, others right rightLive rightOwner] at same
        rw [leftSame] at present
        exact exact.distinct left right leftLive rightLive same present
  · intro key keyLive present
    by_cases isOwner : key = owner
    · subst isOwner
      rwa [atOwner]
    · rw [others key keyLive isOwner] at present ⊢
      exact exact.inside key keyLive present
  · intro other otherResource
    by_cases same : other = number
    · subst same
      rw [Function.update_self]
      exact ⟨fun _ => ⟨owner, isLive, atOwner⟩, fun _ => rfl⟩
    · rw [Function.update_of_ne same, exact.marked other otherResource]
      constructor
      · rintro ⟨key, keyLive, rfl⟩
        by_cases isOwner : key = owner
        · subst isOwner
          rw [empty] at otherResource
          exact absurd otherResource exact.positive
        · exact ⟨key, keyLive, others key keyLive isOwner⟩
      · rintro ⟨key, keyLive, rfl⟩
        have isOther : key ≠ owner := by
          rintro rfl
          exact same atOwner
        exact ⟨key, keyLive, (others key keyLive isOther).symm⟩

/-- A set of keys gives up what it owns. -/
theorem release
    (exact : Exact live stored resource used)
    {cleared : Key → Prop}
    {used' : Nat → Bool}
    (emptied : ∀ key, live key → cleared key → stored' key = 0)
    (others : ∀ key, live key → ¬ cleared key → stored' key = stored key)
    (unmarked :
      ∀ number, resource number →
        (used' number = true ↔
          used number = true ∧
            ¬ ∃ key, live key ∧ cleared key ∧ stored key = number)) :
    Exact live stored' resource used' := by
  have kept :
      ∀ key, live key → stored' key ≠ 0 →
        ¬ cleared key ∧ stored' key = stored key := by
    intro key keyLive present
    have notCleared : ¬ cleared key :=
      fun isCleared => present (emptied key keyLive isCleared)
    exact ⟨notCleared, others key keyLive notCleared⟩
  constructor
  · exact exact.positive
  · intro left right leftLive rightLive same present
    have leftKept := (kept left leftLive present).2
    have rightKept := (kept right rightLive (same ▸ present)).2
    rw [leftKept, rightKept] at same
    rw [leftKept] at present
    exact exact.distinct left right leftLive rightLive same present
  · intro key keyLive present
    have keyKept := (kept key keyLive present).2
    rw [keyKept] at present ⊢
    exact exact.inside key keyLive present
  · intro number isResource
    have nonzero : number ≠ 0 := by
      rintro rfl
      exact exact.positive isResource
    rw [unmarked number isResource, exact.marked number isResource]
    constructor
    · rintro ⟨⟨key, keyLive, rfl⟩, notCleared⟩
      have stays : ¬ cleared key :=
        fun isCleared => notCleared ⟨key, keyLive, isCleared, rfl⟩
      exact ⟨key, keyLive, others key keyLive stays⟩
    · rintro ⟨key, keyLive, rfl⟩
      rcases kept key keyLive nonzero with ⟨notCleared, same⟩
      rw [same] at nonzero ⊢
      refine ⟨⟨key, keyLive, rfl⟩, ?_⟩
      rintro ⟨other, otherLive, isCleared, sameNumber⟩
      have equal :=
        exact.distinct other key otherLive keyLive sameNumber
          (sameNumber ▸ nonzero)
      subst equal
      exact notCleared isCleared

/-- Keys which store nothing may become live or cease to be. -/
theorem relabel
    (exact : Exact live stored resource used)
    {live' : Key → Prop}
    (gone : ∀ key, live key → ¬ live' key → stored key = 0)
    (new : ∀ key, live' key → ¬ live key → stored' key = 0)
    (others : ∀ key, live' key → live key → stored' key = stored key) :
    Exact live' stored' resource used := by
  have kept :
      ∀ key, live' key → stored' key ≠ 0 →
        live key ∧ stored' key = stored key := by
    intro key keyLive present
    have wasLive : live key := by
      by_contra notLive
      exact present (new key keyLive notLive)
    exact ⟨wasLive, others key keyLive wasLive⟩
  constructor
  · exact exact.positive
  · intro left right leftLive rightLive same present
    rcases kept left leftLive present with ⟨wasLeft, leftKept⟩
    rcases kept right rightLive (same ▸ present) with ⟨wasRight, rightKept⟩
    rw [leftKept, rightKept] at same
    rw [leftKept] at present
    exact exact.distinct left right wasLeft wasRight same present
  · intro key keyLive present
    rcases kept key keyLive present with ⟨wasLive, keyKept⟩
    rw [keyKept] at present ⊢
    exact exact.inside key wasLive present
  · intro number isResource
    have nonzero : number ≠ 0 := by
      rintro rfl
      exact exact.positive isResource
    rw [exact.marked number isResource]
    constructor
    · rintro ⟨key, keyLive, rfl⟩
      have stays : live' key := by
        by_contra notLive
        exact nonzero (gone key keyLive notLive)
      exact ⟨key, stays, others key stays keyLive⟩
    · rintro ⟨key, keyLive, rfl⟩
      rcases kept key keyLive nonzero with ⟨wasLive, same⟩
      exact ⟨key, wasLive, same.symm⟩

end Exact

end FudanOS.Library.Ownership
