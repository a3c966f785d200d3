import FudanOS.Library.RingBuffer
import FudanOS.Library.Runs

/-!
# The console as a line editor

`console_intr` and `console_read` of `kernel/console.c`, with one reader.  An
interrupt runs from its entry to its return; a reader runs until it returns or
waits, and goes on when its wait returns.  The echo on the screen is left out,
and so is the process which Ctrl-C kills.

The console is compared with an editor which has a queue of committed bytes
and a line which is being typed.
-/

namespace FudanOS.Kernel.Console

open FudanOS.Library.Runs
open FudanOS.Library.RingBuffer

/-! ## The functions -/

/-- `IBUF_SIZE` -/
abbrev ibufSize : Nat := 128

/-- The indices are of type `usize`. -/
abbrev usizeSize : Nat := 2 ^ 64

/-- `C('C')` -/
abbrev ctrlC : UInt8 := 3

/-- `C('D')` -/
abbrev ctrlD : UInt8 := 4

/-- `C('U')` -/
abbrev ctrlU : UInt8 := 21

/-- `'\n'` -/
abbrev lf : UInt8 := 10

/-- `'\r'` -/
abbrev cr : UInt8 := 13

/-- `'\x7f'` -/
abbrev del : UInt8 := 127

/-- `struct console` without its lock -/
structure Cons where
  sem : Nat
  buf : Nat → UInt8
  readIdx : Nat
  writeIdx : Nat
  editIdx : Nat

/-- `edit_idx - 1` -/
def Cons.lastIdx (cons : Cons) : Nat :=
  (cons.editIdx + usizeSize - 1) % usizeSize

/--
The loop for Ctrl-U.  Every round gives up a character of the line, so there
are at most as many rounds as there are characters.
-/
def eraseLine : Nat → Cons → Cons
  | 0, cons => cons
  | rounds + 1, cons =>
      if
        cons.editIdx ≠ cons.writeIdx ∧
          cons.buf (cons.lastIdx % ibufSize) ≠ lf
      then
        eraseLine rounds { cons with editIdx := cons.lastIdx }
      else
        cons

/-- `console_intr(c)` -/
def consoleIntr (c : UInt8) (cons : Cons) : Cons :=
  if c ≠ 0 then
    if c = ctrlC then
      -- `kill(thisproc()->pid)` leaves the console as it is.
      cons
    else if c = ctrlU then
      eraseLine
        ((cons.editIdx + usizeSize - cons.writeIdx) % usizeSize) cons
    else if c = del then
      if cons.editIdx ≠ cons.writeIdx then
        { cons with editIdx := cons.lastIdx }
      else
        cons
    else if
      (cons.editIdx + usizeSize - cons.readIdx) % usizeSize < ibufSize
    then
      let c := if c = cr then lf else c
      let cons :=
        { cons with
          buf := Function.update cons.buf (cons.editIdx % ibufSize) c
          editIdx := (cons.editIdx + 1) % usizeSize }
      if
        c = lf ∨ c = ctrlD ∨
          cons.editIdx = (cons.readIdx + ibufSize) % usizeSize
      then
        { cons with writeIdx := cons.editIdx, sem := cons.sem + 1 }
      else
        cons
    else
      cons
  else
    cons

/-- How far a call of `console_read` has come. -/
inductive Progress where
  /-- It waits, with so many bytes to go. -/
  | blocked (n : Nat) (got : List UInt8)
  | returned (got : List UInt8)
  /-- It returns -1. -/
  | failed
  deriving DecidableEq

/-- The loop of `console_read` when `n` bytes of `m` are left -/
def readFrom (killed : Bool) (m : Nat) :
    Nat → Cons → List UInt8 → Cons × Progress
  | 0, cons, got => (cons, .returned got)
  | n + 1, cons, got =>
      if cons.readIdx = cons.writeIdx then
        (cons, if killed then .failed else .blocked (n + 1) got)
      else
        let c := cons.buf (cons.readIdx % ibufSize)
        let cons :=
          { cons with readIdx := (cons.readIdx + 1) % usizeSize }
        if c = ctrlD then
          if n + 1 < m then
            ({ cons with
              readIdx :=
                (cons.readIdx + usizeSize - 1) % usizeSize },
              .returned got)
          else
            (cons, .returned got)
        else if c = lf then
          (cons, .returned (got ++ [c]))
        else
          readFrom killed m n cons (got ++ [c])

/-- The reader: not in a call, or waiting in a call for `m` bytes. -/
inductive Reader where
  | idle
  | waiting (m n : Nat) (got : List UInt8)
  deriving DecidableEq

structure State where
  cons : Cons
  reader : Reader
  /-- What the calls have returned; `none` stands for -1. -/
  results : List (Option (List UInt8))

inductive Label where
  | intr (c : UInt8)
  | read (n : Int)
  /-- `unalertable_wait_sem(&cons.sem)` returns. -/
  | resume

/-- The reader after its loop has stopped. -/
def settle (m : Nat) (results : List (Option (List UInt8))) :
    Progress → Reader × List (Option (List UInt8))
  | .blocked n got => (.waiting m n got, results)
  | .returned got => (.idle, results ++ [some got])
  | .failed => (.idle, results ++ [none])

/-- The reader goes on; nobody has killed it. -/
def continueRead (state : State) (cons : Cons) (m n : Nat)
    (got : List UInt8) : State :=
  let (cons, progress) := readFrom false m n cons got
  let (reader, results) := settle m state.results progress
  { cons := cons, reader := reader, results := results }

def step (state : State) : Label → Except Unit State
  | .intr c => .ok { state with cons := consoleIntr c state.cons }
  | .read n =>
      match state.reader with
      | .idle => .ok (continueRead state state.cons n.toNat n.toNat [])
      | .waiting _ _ _ => .error ()
  | .resume =>
      match state.reader with
      | .idle => .error ()
      | .waiting m n got =>
          if 0 < state.cons.sem then
            .ok
              (continueRead state
                { state.cons with sem := state.cons.sem - 1 } m n got)
          else
            .error ()

/-- `console_init` -/
def initial : State where
  cons :=
    { sem := 0
      buf := fun _ => 0
      readIdx := 0
      writeIdx := 0
      editIdx := 0 }
  reader := .idle
  results := []

/-! ## The line editor -/

/-- Bytes for the reader, and a line which can still be edited. -/
structure Line where
  committed : List UInt8
  pending : List UInt8

namespace Line

/-- The pending line goes to the reader. -/
def commit (line : Line) : Line where
  committed := line.committed ++ line.pending
  pending := []

/-- An ordinary character is typed. -/
def insert (c : UInt8) (line : Line) : Line :=
  if line.committed.length + line.pending.length < ibufSize then
    let c := if c = cr then lf else c
    let line := { line with pending := line.pending ++ [c] }
    if
      c = lf ∨ c = ctrlD ∨
        line.committed.length + line.pending.length = ibufSize
    then
      line.commit
    else
      line
  else
    line

/-- A key is pressed. -/
def press (c : UInt8) (line : Line) : Line :=
  if c = ctrlU then
    { line with pending := [] }
  else if c = del then
    { line with pending := line.pending.dropLast }
  else
    line.insert c

/-- A key is pressed; a NUL is ignored. -/
def type (c : UInt8) (line : Line) : Line :=
  if c = 0 then line else line.press c

/-- The bytes which a reader gets from the queue. -/
def readFrom : Nat → List UInt8 → List UInt8 → List UInt8 × Progress
  | 0, committed, got => (committed, .returned got)
  | n + 1, [], got => ([], .blocked (n + 1) got)
  | n + 1, c :: rest, got =>
      if c = ctrlD then
        (if got = [] then rest else c :: rest, .returned got)
      else if c = lf then
        (rest, .returned (got ++ [c]))
      else
        readFrom n rest (got ++ [c])

end Line

/-- The line editor and its reader. -/
structure Editor where
  line : Line
  reader : Reader
  results : List (Option (List UInt8))

/-- The reader goes on with the committed bytes. -/
def Editor.continueRead (editor : Editor) (m n : Nat)
    (got : List UInt8) : Editor :=
  let (committed, progress) := Line.readFrom n editor.line.committed got
  let (reader, results) := settle m editor.results progress
  { line := { editor.line with committed := committed }
    reader := reader
    results := results }

/-- What the editor does when a key is pressed is a parameter. -/
def Editor.step (key : UInt8 → Line → Line) (editor : Editor) :
    Label → Except Unit Editor
  | .intr c => .ok { editor with line := key c editor.line }
  | .read n =>
      match editor.reader with
      | .idle => .ok (editor.continueRead n.toNat n.toNat [])
      | .waiting _ _ _ => .error ()
  | .resume =>
      match editor.reader with
      | .idle => .error ()
      | .waiting m n got => .ok (editor.continueRead m n got)

def Editor.initial : Editor where
  line := ⟨[], []⟩
  reader := .idle
  results := []

/-- The indices are running counts in order, kept modulo `2 ^ 64`. -/
def Ordered (cons : Cons) : Prop :=
  ∃ read write edit,
    read ≤ write ∧ write ≤ edit ∧ edit ≤ read + ibufSize ∧
      cons.readIdx = read % usizeSize ∧
      cons.writeIdx = write % usizeSize ∧
      cons.editIdx = edit % usizeSize

/-- The ring holds the committed bytes and the pending line. -/
structure Represents (cons : Cons) (line : Line) (taken : Nat) : Prop where
  ring :
    Contains ibufSize usizeSize cons.buf cons.readIdx cons.editIdx taken
      (line.committed ++ line.pending)
  write :
    cons.writeIdx = (taken + line.committed.length) % usizeSize
  typed : lf ∉ line.pending

/-- A reader which waits is woken when there is something to read. -/
def Woken (cons : Cons) (line : Line) : Reader → Prop
  | .idle => True
  | .waiting m n got =>
      m = n + got.length ∧ (line.committed ≠ [] → 0 < cons.sem)

/-- The console is in the state in which the editor is. -/
structure Refines (state : State) (editor : Editor) : Prop where
  represents : ∃ taken, Represents state.cons editor.line taken
  reader : state.reader = editor.reader
  results : state.results = editor.results
  woken : Woken state.cons editor.line state.reader

/-! ## Keys -/

namespace Represents

variable
    {cons : Cons}
    {line : Line}
    {taken : Nat}
    {c : UInt8}

theorem ordered
    (represents : Represents cons line taken) :
    Ordered cons := by
  have bounded := represents.ring.bounded
  rw [List.length_append] at bounded
  refine ⟨taken, taken + line.committed.length,
    taken + (line.committed ++ line.pending).length,
    Nat.le_add_right _ _, ?_, ?_, represents.ring.read, represents.write,
    represents.ring.write⟩
  · rw [List.length_append]
    omega
  · rw [List.length_append]
    omega

theorem edit_eq_write_iff
    (represents : Represents cons line taken) :
    cons.editIdx = cons.writeIdx ↔ line.pending = [] := by
  have bounded := represents.ring.bounded
  rw [List.length_append] at bounded
  have smaller : ibufSize < usizeSize := by decide
  rw [represents.ring.write, represents.write, List.length_append,
    mod_add_eq_iff taken (by omega) (by omega), Nat.add_eq_left,
    List.length_eq_zero_iff]

theorem read_eq_write_iff
    (represents : Represents cons line taken) :
    cons.readIdx = cons.writeIdx ↔ line.committed = [] := by
  have bounded := represents.ring.bounded
  rw [List.length_append] at bounded
  have smaller : ibufSize < usizeSize := by decide
  have compare :
      (taken + 0) % usizeSize =
          (taken + line.committed.length) % usizeSize ↔
        0 = line.committed.length :=
    mod_add_eq_iff taken (by omega) (by omega)
  rw [represents.ring.read, represents.write]
  rw [Nat.add_zero] at compare
  rw [compare, eq_comm, List.length_eq_zero_iff]

/-- The last character of the line is given up. -/
theorem erase
    {pending : List UInt8}
    (represents : Represents cons line taken)
    (last : line.pending = pending ++ [c]) :
    Represents { cons with editIdx := cons.lastIdx }
      { line with pending := pending } taken := by
  refine ⟨?_, represents.write, ?_⟩
  · have ring := represents.ring
    rw [last, ← List.append_assoc] at ring
    exact ring.unextend (by decide)
  · have typed := represents.typed
    rw [last] at typed
    exact fun member => typed (List.mem_append_left _ member)

/-- What is in the cell of the last character. -/
theorem last_ne_lf
    {pending : List UInt8}
    (represents : Represents cons line taken)
    (last : line.pending = pending ++ [c]) :
    cons.buf (cons.lastIdx % ibufSize) ≠ lf := by
  have ring := represents.ring
  rw [last, ← List.append_assoc] at ring
  have stored := ring.back (by decide) (by decide)
  unfold Cons.lastIdx
  rw [stored]
  rintro rfl
  apply represents.typed
  rw [last]
  exact List.mem_append_right _ List.mem_cons_self

/-- Ctrl-U gives up the whole line. -/
theorem eraseLine
    (rounds : Nat)
    (represents : Represents cons line taken)
    (enough : line.pending.length ≤ rounds) :
    Represents (eraseLine rounds cons) { line with pending := [] }
      taken := by
  induction rounds generalizing cons line with
  | zero =>
      have none : line.pending = [] :=
        List.length_eq_zero_iff.mp (Nat.le_zero.mp enough)
      rw [← none]
      exact represents
  | succ rounds ih =>
      unfold Console.eraseLine
      rcases List.eq_nil_or_concat line.pending with
        none | ⟨pending, c, last⟩
      · have stops := represents.edit_eq_write_iff.mpr none
        rw [if_neg fun both => both.1 stops, ← none]
        exact represents
      · rw [List.concat_eq_append] at last
        have goes : cons.editIdx ≠ cons.writeIdx := by
          intro same
          have none := represents.edit_eq_write_iff.mp same
          rw [last] at none
          simp at none
        rw [if_pos ⟨goes, represents.last_ne_lf last⟩]
        rw [last, List.length_append] at enough
        have erased :=
          ih (represents.erase last) (Nat.le_of_succ_le_succ enough)
        exact erased

end Represents

theorem eraseLine_sem
    (rounds : Nat)
    (cons : Cons) :
    (eraseLine rounds cons).sem = cons.sem := by
  induction rounds generalizing cons with
  | zero => rfl
  | succ rounds ih =>
      unfold eraseLine
      split_ifs
      · exact ih _
      · rfl

/--
The console follows the editor through a key, and a key which commits
something posts the semaphore.
-/
structure Follows
    (cons cons' : Cons)
    (line line' : Line)
    (taken : Nat) : Prop where
  represents : Represents cons' line' taken
  sem : cons.sem ≤ cons'.sem
  posted : line'.committed = line.committed ∨ 0 < cons'.sem

section Keys

variable
    {cons : Cons}
    {line : Line}
    {taken : Nat}
    {c : UInt8}

/-- DEL gives up the last character, if there is one. -/
theorem Represents.del
    (represents : Represents cons line taken) :
    Represents
      (if cons.editIdx ≠ cons.writeIdx then
        { cons with editIdx := cons.lastIdx }
      else
        cons)
      { line with pending := line.pending.dropLast } taken := by
  rcases List.eq_nil_or_concat line.pending with
    none | ⟨pending, last, concat⟩
  · have stops := represents.edit_eq_write_iff.mpr none
    rw [if_neg fun different => different stops, none,
      List.dropLast_nil, ← none]
    exact represents
  · rw [List.concat_eq_append] at concat
    have goes : cons.editIdx ≠ cons.writeIdx := by
      intro same
      have none := represents.edit_eq_write_iff.mp same
      rw [concat] at none
      simp at none
    rw [if_pos goes]
    have shorter : line.pending.dropLast = pending := by
      rw [concat, List.dropLast_concat]
    rw [shorter]
    exact represents.erase concat

/-- A character is stored at the end of the line. -/
theorem Represents.store
    (represents : Represents cons line taken)
    (room : line.committed.length + line.pending.length < ibufSize) :
    Contains ibufSize usizeSize
      (Function.update cons.buf (cons.editIdx % ibufSize) c)
      cons.readIdx ((cons.editIdx + 1) % usizeSize) taken
      (line.committed ++ (line.pending ++ [c])) := by
  rw [← List.length_append] at room
  rw [← List.append_assoc]
  exact (represents.ring.overwrite (by decide) room c).extend (by decide)
    room (Function.update_self _ _ _)

/-- The rest of `console_intr` after the character is stored. -/
theorem Represents.insert
    (represents : Represents cons line taken)
    (room : line.committed.length + line.pending.length < ibufSize)
    (cons' : Cons)
    (line' : Line)
    (buf :
      cons'.buf =
        Function.update cons.buf (cons.editIdx % ibufSize) c)
    (edit : cons'.editIdx = (cons.editIdx + 1) % usizeSize)
    (read : cons'.readIdx = cons.readIdx)
    (write : cons'.writeIdx = cons.writeIdx)
    (sem : cons'.sem = cons.sem)
    (pending : line'.pending = line.pending ++ [c])
    (committed : line'.committed = line.committed) :
    Follows cons
      (if
        c = lf ∨ c = ctrlD ∨
          cons'.editIdx = (cons'.readIdx + ibufSize) % usizeSize
      then
        { cons' with writeIdx := cons'.editIdx, sem := cons'.sem + 1 }
      else
        cons')
      line
      (if
        c = lf ∨ c = ctrlD ∨
          line'.committed.length + line'.pending.length = ibufSize
      then
        line'.commit
      else
        line') taken := by
  have ring := represents.store (c := c) room
  rw [← buf, ← edit, ← read, ← pending, ← committed] at ring
  have full :
      cons'.editIdx = (cons'.readIdx + ibufSize) % usizeSize ↔
        line'.committed.length + line'.pending.length = ibufSize := by
    rw [ring.write_eq_read_add_iff (by decide), List.length_append]
  simp only [full]
  split_ifs with commits
  · refine ⟨⟨?_, ?_, List.not_mem_nil⟩, ?_, Or.inr (Nat.succ_pos _)⟩
    · change Contains _ _ _ _ _ _
        (line'.committed ++ line'.pending ++ [])
      rw [List.append_nil]
      exact ring
    · exact ring.write
    · rw [← sem]
      exact Nat.le_succ _
  · refine ⟨⟨ring, ?_, ?_⟩, Nat.le_of_eq sem.symm, Or.inl committed⟩
    · rw [write, committed]
      exact represents.write
    · rw [pending]
      intro member
      rcases List.mem_append.mp member with before | now
      · exact represents.typed before
      · rw [List.mem_singleton] at now
        exact commits (Or.inl now.symm)

/-- `console_intr` does what the editor does. -/
theorem Represents.intr
    (represents : Represents cons line taken)
    (other : c ≠ ctrlC) :
    Follows cons (consoleIntr c cons) line (line.type c) taken := by
  have distance := represents.ring.distance (by decide)
  have bounded := represents.ring.bounded
  have smaller : ibufSize < usizeSize := by decide
  rw [List.length_append] at distance bounded
  unfold consoleIntr Line.type
  by_cases nul : c = 0
  · rw [if_neg fun different => different nul, if_pos nul]
    exact ⟨represents, Nat.le_refl _, Or.inl rfl⟩
  rw [if_pos nul, if_neg nul, if_neg other]
  unfold Line.press
  by_cases isCtrlU : c = ctrlU
  · rw [if_pos isCtrlU, if_pos isCtrlU]
    refine ⟨represents.eraseLine _ ?_, ?_, Or.inl rfl⟩
    · rw [represents.write, represents.ring.write, List.length_append,
        ← Nat.add_assoc, mod_distance _ (by omega)]
    · rw [eraseLine_sem]
  rw [if_neg isCtrlU, if_neg isCtrlU]
  by_cases isDel : c = Console.del
  · rw [if_pos isDel, if_pos isDel]
    refine ⟨represents.del, ?_, Or.inl rfl⟩
    split_ifs
    · exact Nat.le_refl _
    · exact Nat.le_refl _
  rw [if_neg isDel, if_neg isDel]
  unfold Line.insert
  rw [distance]
  by_cases room : line.committed.length + line.pending.length < ibufSize
  · rw [if_pos room, if_pos room]
    let stored := if c = cr then lf else c
    exact represents.insert room
      { cons with
        buf := Function.update cons.buf (cons.editIdx % ibufSize) stored
        editIdx := (cons.editIdx + 1) % usizeSize }
      { line with pending := line.pending ++ [stored] }
      rfl rfl rfl rfl rfl rfl rfl
  · rw [if_neg room, if_neg room]
    exact ⟨represents, Nat.le_refl _, Or.inl rfl⟩

end Keys

/-! ## Readers -/

section Readers

variable
    {cons : Cons}
    {line : Line}
    {taken : Nat}
    {c : UInt8}
    {rest got : List UInt8}

/-- The first committed byte. -/
theorem Represents.front
    (represents : Represents cons line taken)
    (first : line.committed = c :: rest) :
    cons.buf (cons.readIdx % ibufSize) = c := by
  have ring := represents.ring
  rw [first, List.cons_append] at ring
  exact ring.front (by decide)

/-- The first committed byte is taken. -/
theorem Represents.take
    (represents : Represents cons line taken)
    (first : line.committed = c :: rest) :
    Represents
      { cons with readIdx := (cons.readIdx + 1) % usizeSize }
      { line with committed := rest } (taken + 1) := by
  refine ⟨?_, ?_, represents.typed⟩
  · have ring := represents.ring
    rw [first, List.cons_append] at ring
    exact ring.pop
  · have write := represents.write
    rw [first, List.length_cons] at write
    change cons.writeIdx = (taken + 1 + rest.length) % usizeSize
    rw [write]
    congr 1
    omega

/-- Ctrl-D is put back. -/
theorem Represents.putBack
    (represents : Represents cons line taken) :
    { cons with
        readIdx :=
          ((cons.readIdx + 1) % usizeSize + usizeSize - 1) %
            usizeSize } = cons := by
  have below : cons.readIdx < usizeSize := by
    rw [represents.ring.read]
    exact Nat.mod_lt _ (by decide)
  rw [mod_succ_pred (by decide), Nat.mod_eq_of_lt below]

/-- What the loops of the console and of the editor have in common. -/
structure Agrees
    (cons cons' : Cons)
    (pending committed : List UInt8)
    (m : Nat)
    (progress : Progress) : Prop where
  represents : ∃ taken, Represents cons' ⟨committed, pending⟩ taken
  sem : cons'.sem = cons.sem
  blocked :
    ∀ n got, progress = .blocked n got →
      m = n + got.length ∧ committed = []

/-- The loop of `console_read` takes the bytes which the editor gives. -/
theorem Represents.readFrom
    {m n : Nat}
    (represents : Represents cons line taken)
    (left : m = n + got.length) :
    (Console.readFrom false m n cons got).2 =
        (Line.readFrom n line.committed got).2 ∧
      Agrees cons (Console.readFrom false m n cons got).1 line.pending
        (Line.readFrom n line.committed got).1 m
        (Line.readFrom n line.committed got).2 := by
  induction n generalizing cons line taken got with
  | zero =>
      refine ⟨rfl, ⟨taken, represents⟩, rfl, ?_⟩
      intro n bytes blocked
      cases blocked
  | succ n ih =>
      unfold Console.readFrom
      cases queue : line.committed with
      | nil =>
          have empty := represents.read_eq_write_iff.mpr queue
          rw [if_pos empty]
          refine ⟨rfl, ⟨taken, ?_⟩, rfl, ?_⟩
          · change Represents cons ⟨[], line.pending⟩ taken
            rw [← queue]
            exact represents
          · intro other bytes blocked
            cases blocked
            exact ⟨left, rfl⟩
      | cons c rest =>
          have more : cons.readIdx ≠ cons.writeIdx := by
            intro same
            have none := represents.read_eq_write_iff.mp same
            rw [queue] at none
            cases none
          have byte := represents.front queue
          have taking := represents.take queue
          rw [if_neg more]
          dsimp only
          rw [byte]
          unfold Line.readFrom
          by_cases isCtrlD : c = ctrlD
          · rw [if_pos isCtrlD, if_pos isCtrlD]
            by_cases none : got = []
            · subst none
              have first : ¬ n + 1 < m := by
                rw [left]
                exact Nat.lt_irrefl _
              rw [if_neg first, if_pos rfl]
              refine ⟨rfl, ⟨taken + 1, taking⟩, rfl, ?_⟩
              intro other bytes blocked
              cases blocked
            · have later : n + 1 < m := by
                have positive := List.length_pos_iff.mpr none
                omega
              rw [if_pos later, if_neg none, represents.putBack]
              refine ⟨rfl, ⟨taken, ?_⟩, rfl, ?_⟩
              · rw [← queue]
                exact represents
              · intro other bytes blocked
                cases blocked
          · rw [if_neg isCtrlD, if_neg isCtrlD]
            by_cases isLf : c = lf
            · rw [if_pos isLf, if_pos isLf]
              refine ⟨rfl, ⟨taken + 1, taking⟩, rfl, ?_⟩
              intro other bytes blocked
              cases blocked
            · rw [if_neg isLf, if_neg isLf]
              have counted : m = n + (got ++ [c]).length := by
                rw [List.length_append, List.length_singleton, left]
                omega
              rcases ih taking counted with ⟨same, agrees⟩
              exact ⟨same, agrees.represents, agrees.sem,
                agrees.blocked⟩

end Readers

/-! ## Runs -/

/-- Ctrl-C is not pressed. -/
def Allowed (_ : State) : Label → Prop
  | .intr c => c ≠ ctrlC
  | _ => True

section Runs

variable
    {state : State}
    {editor : Editor}

/-- The reader goes on, in the console and in the editor. -/
theorem Refines.continueRead
    {cons : Cons}
    {m n : Nat}
    {got : List UInt8}
    (represents : ∃ taken, Represents cons editor.line taken)
    (results : state.results = editor.results)
    (left : m = n + got.length) :
    Refines (continueRead state cons m n got)
      (editor.continueRead m n got) := by
  rcases represents with ⟨taken, represents⟩
  rcases represents.readFrom left with ⟨same, agrees⟩
  unfold Console.continueRead Editor.continueRead
  generalize Line.readFrom n editor.line.committed got = abstract at *
  generalize Console.readFrom false m n cons got = concrete at *
  rcases abstract with ⟨committed, progress⟩
  rcases concrete with ⟨cons', progress'⟩
  dsimp only at same agrees ⊢
  subst same
  rw [results]
  refine ⟨agrees.represents, rfl, rfl, ?_⟩
  cases progress' with
  | returned bytes => exact trivial
  | failed => exact trivial
  | blocked n' bytes =>
      rcases agrees.blocked n' bytes rfl with ⟨counted, none⟩
      exact ⟨counted, fun some => absurd none some⟩

/-- The editor can do what the console does. -/
theorem Refines.step
    (refines : Refines state editor)
    {label : Label}
    (allowed : Allowed state label)
    {target : State}
    (taken : step state label = .ok target) :
    ∃ next, Editor.step Line.type editor label = .ok next ∧
      Refines target next := by
  rcases refines with ⟨⟨before, represents⟩, reader, results, woken⟩
  cases label with
  | intr c =>
      cases taken
      refine ⟨_, rfl, ?_⟩
      have follows := represents.intr (c := c) allowed
      refine ⟨⟨before, follows.represents⟩, reader, results, ?_⟩
      dsimp only
      cases waiting : state.reader with
      | idle => exact trivial
      | waiting m n got =>
          rw [waiting] at woken
          refine ⟨woken.1, fun some => ?_⟩
          rcases follows.posted with same | posted
          · rw [same] at some
            exact Nat.lt_of_lt_of_le (woken.2 some) follows.sem
          · exact posted
  | read n =>
      unfold Console.step at taken
      unfold Editor.step
      rw [← reader]
      cases waiting : state.reader with
      | waiting m left got =>
          rw [waiting] at taken
          cases taken
      | idle =>
          rw [waiting] at taken
          cases taken
          refine ⟨_, rfl, ?_⟩
          exact Refines.continueRead ⟨before, represents⟩ results rfl
  | resume =>
      unfold Console.step at taken
      unfold Editor.step
      rw [← reader]
      cases waiting : state.reader with
      | idle =>
          rw [waiting] at taken
          cases taken
      | waiting m n got =>
          rw [waiting] at taken woken
          dsimp only at taken
          split_ifs at taken
          cases taken
          refine ⟨_, rfl, ?_⟩
          refine Refines.continueRead ⟨before, ?_⟩ results woken.1
          exact ⟨represents.ring, represents.write, represents.typed⟩

theorem refines_initial : Refines initial Editor.initial := by
  refine ⟨⟨0, ?_, rfl, List.not_mem_nil⟩, rfl, rfl, trivial⟩
  exact Contains.empty

theorem Line.committed_prefix_insert
    (line : Line)
    (c : UInt8) :
    line.committed <+: (line.insert c).committed := by
  unfold Line.insert
  by_cases room : line.committed.length + line.pending.length < ibufSize
  · rw [if_pos room]
    generalize (if c = cr then lf else c) = stored
    dsimp only
    by_cases commits :
        stored = lf ∨ stored = ctrlD ∨
          line.committed.length + (line.pending ++ [stored]).length =
            ibufSize
    · rw [if_pos commits]
      exact List.prefix_append _ _
    · rw [if_neg commits]
  · rw [if_neg room]

/-- A key leaves the committed bytes where they are. -/
theorem Line.committed_prefix_type
    (line : Line)
    (c : UInt8) :
    line.committed <+: (line.type c).committed := by
  unfold Line.type Line.press
  by_cases nul : c = 0
  · rw [if_pos nul]
  rw [if_neg nul]
  by_cases isCtrlU : c = ctrlU
  · rw [if_pos isCtrlU]
  rw [if_neg isCtrlU]
  by_cases isDel : c = del
  · rw [if_pos isDel]
  rw [if_neg isDel]
  exact line.committed_prefix_insert c

/--
For every sequence of keys and reads, the console keeps its indices in order
and does what the line editor does; a reader does not wait while there is
something to read, and keys leave the committed bytes as they are.
-/
theorem console_refines_editor
    {labels : List Label}
    {finish : State}
    (run : Run (Takes step) Allowed initial labels finish) :
    Ordered finish.cons ∧
      ∃ editor,
        Run (Takes (Editor.step Line.type)) (fun _ _ => True)
            Editor.initial labels editor ∧
          Refines finish editor ∧
          ∀ c, editor.line.committed <+: (editor.line.type c).committed := by
  have simulated :
      ∃ editor,
        Run (Takes (Editor.step Line.type)) (fun _ _ => True)
            Editor.initial labels editor ∧
          Refines finish editor := by
    induction run with
    | nil => exact ⟨Editor.initial, Run.nil, refines_initial⟩
    | snoc front permitted taken ih =>
        rcases ih with ⟨editor, before, refines⟩
        rcases refines.step permitted taken with ⟨next, moved, after⟩
        exact ⟨next, Run.snoc before trivial moved, after⟩
  rcases simulated with ⟨editor, same, refines⟩
  rcases refines.represents with ⟨taken, represents⟩
  exact ⟨represents.ordered, editor, same, refines,
    fun c => editor.line.committed_prefix_type c⟩

end Runs

instance (state : State) (label : Label) :
    Decidable (Allowed state label) :=
  match label with
  | .intr _ => inferInstanceAs (Decidable (_ ≠ _))
  | .read _ => inferInstanceAs (Decidable True)
  | .resume => inferInstanceAs (Decidable True)

/-- A reader waits, `a`, `b`, DEL and CR are typed, and the reader goes on. -/
def typedLine : List Label :=
  [.read 10, .intr 97, .intr 98, .intr del, .intr cr, .resume]

theorem console_refines_editor_line :
    ∃ finish editor,
      Run (Takes step) Allowed initial typedLine finish ∧
        finish.results = [some [97, 10]] ∧
        Run (Takes (Editor.step Line.type)) (fun _ _ => True)
          Editor.initial typedLine editor ∧
        Refines finish editor := by
  have computed :
      ((executeChecked step
        (fun state label => decide (Allowed state label)) initial
        typedLine).map State.results) = some [some [97, 10]] := by
    decide +kernel
  rcases Option.map_eq_some_iff.mp computed with
    ⟨finish, executed, results⟩
  have run : Run (Takes step) Allowed initial typedLine finish :=
    Run.of_executeChecked (fun _ _ => of_decide_eq_true) executed
  rcases console_refines_editor run with ⟨-, editor, same, refines, -⟩
  exact ⟨finish, editor, run, results, same, refines⟩

/--
A NUL is an ordinary character for `Line.press`, which appends it to the line;
the console ignores it.
-/
theorem nul_not_appended :
    ∃ finish editor,
      Run (Takes step) Allowed initial [.intr 0] finish ∧
        Run (Takes (Editor.step Line.press)) (fun _ _ => True)
          Editor.initial [.intr 0] editor ∧
        editor.line.pending = [0] ∧ finish.cons.editIdx = 0 ∧
        ¬ Refines finish editor := by
  refine ⟨initial,
    { Editor.initial with line := ⟨[], [0]⟩ }, ?_, ?_, rfl, rfl, ?_⟩
  · exact Run.cons (show (0 : UInt8) ≠ ctrlC by decide) rfl Run.nil
  · exact Run.cons trivial rfl Run.nil
  · rintro ⟨⟨taken, represents⟩, -, -, -⟩
    have distance := represents.ring.distance (by decide)
    exact absurd distance (by decide)

end FudanOS.Kernel.Console
