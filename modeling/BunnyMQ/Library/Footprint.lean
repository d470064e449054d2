/-
This file compares the runs of a program on two disks that differ in some files or only in what is synced.
-/

import BunnyMQ.Library.FileStore

namespace Foundation.FileStore

section
variable {Name : Type} [DecidableEq Name] {hidden : Name → Prop} {first second : Disk Name}

/-- The disks hold the same file under every name that is not hidden. -/
def AgreeOff (hidden : Name → Prop) (first second : Disk Name) : Prop :=
  ∀ name, ¬ hidden name → first.lookup name = second.lookup name

/-- No hidden file moves to another name. -/
def FileOp.KeepsHidden (hidden : Name → Prop) (op : FileOp Name) : Prop :=
  ∀ source target, op = .rename source target → ¬ hidden source

theorem AgreeOff.refl (hidden : Name → Prop) (disk : Disk Name) : AgreeOff hidden disk disk := fun _ _ => rfl

/-- One operation on both disks shows no difference that was hidden. -/
theorem AgreeOff.apply (agree : AgreeOff hidden first second) {op : FileOp Name} (keeps : op.KeepsHidden hidden) :
    AgreeOff hidden (first.apply op) (second.apply op) := by
  intro name shown
  have same := agree name shown
  cases op with
  | create file =>
    rw [lookup_create, lookup_create]
    split
    · next equal => rw [← equal, same]
    · exact same
  | write file data => rw [lookup_write, lookup_write, same]
  | remove file => rw [lookup_remove, lookup_remove, same]
  | rename source target =>
    have moved := agree source (keeps source target rfl)
    cases found : second.lookup source with
    | none => rw [Disk.apply, Disk.apply, moved, found]; exact same
    | some content => rw [lookup_rename found, lookup_rename (moved.trans found), same]
  | append file data | truncate file size | mmap file | msync file data | sync file =>
    refine (lookup_modify first file name _).trans (Eq.trans ?_ (lookup_modify second file name _).symm)
    split
    · next equal => rw [← equal, same]
    · exact same

theorem AgreeOff.applyAll (agree : AgreeOff hidden first second) {ops : List (FileOp Name)}
    (keeps : ∀ op ∈ ops, op.KeepsHidden hidden) : AgreeOff hidden (first.applyAll ops) (second.applyAll ops) := by
  induction ops generalizing first second with
  | nil => exact agree
  | cons op ops ih =>
    exact ih (agree.apply (keeps op List.mem_cons_self)) fun later member =>
      keeps later (List.mem_cons_of_mem _ member)

/-- The files of both disks hold the same bytes. The disks may differ in what a sync covers. -/
def SameData (first second : Disk Name) : Prop := ∀ name, first.read name = second.read name

section
variable (same : SameData first second)
include same

theorem SameData.lookup (name : Name) :
    (first.lookup name = none ∧ second.lookup name = none) ∨
      ∃ content other : File, first.lookup name = some content ∧ second.lookup name = some other ∧
        content.data = other.data := by
  have held := same name
  rw [Disk.read, Disk.read] at held
  cases before : first.lookup name with
  | none =>
    rw [before, Option.map_none, eq_comm, Option.map_eq_none_iff] at held
    exact .inl ⟨rfl, held⟩
  | some content =>
    rw [before, Option.map_some, eq_comm, Option.map_eq_some_iff] at held
    obtain ⟨other, found, data⟩ := held
    exact .inr ⟨content, other, rfl, found, data.symm⟩

theorem SameData.modify (file : Name) {change : File → File}
    (byData : ∀ content other : File, content.data = other.data → (change content).data = (change other).data) :
    SameData (first.modify file change) (second.modify file change) := by
  intro name
  rw [Disk.read, Disk.read, lookup_modify, lookup_modify]
  split
  · rcases same.lookup file with ⟨before, after⟩ | ⟨content, other, before, after, data⟩
    · rw [before, after]
    · rw [before, after]
      exact congrArg some (byData content other data)
  · exact same name

/-- One operation on both disks writes the same bytes. -/
theorem SameData.apply (op : FileOp Name) : SameData (first.apply op) (second.apply op) := by
  cases op with
  | create file =>
    intro name
    rw [Disk.read, Disk.read, lookup_create, lookup_create]
    split
    · rcases same.lookup file with ⟨before, after⟩ | ⟨content, other, before, after, data⟩
      · rw [before, after]
      · rw [before, after]
        exact congrArg some data
    · exact same name
  | write file data =>
    intro name
    rw [Disk.read, Disk.read, lookup_write, lookup_write]
    split
    · rfl
    · exact same name
  | remove file =>
    intro name
    rw [Disk.read, Disk.read, lookup_remove, lookup_remove]
    split
    · rfl
    · exact same name
  | rename source target =>
    intro name
    rcases same.lookup source with ⟨before, after⟩ | ⟨content, other, before, after, data⟩
    · rw [Disk.apply, Disk.apply, before, after]
      exact same name
    · rw [Disk.read, Disk.read, lookup_rename before, lookup_rename after]
      split
      · exact congrArg some data
      · split
        · rfl
        · exact same name
  | append file data => exact same.modify file fun _ _ equal => congrArg (· ++ data) equal
  | truncate file size =>
    refine same.modify file fun content other equal => ?_
    rw [File.truncate, File.truncate, equal]
  | mmap file => exact same.modify file fun _ _ equal => equal
  | msync file data => exact same.modify file fun _ _ _ => rfl
  | sync file => exact same.modify file fun _ _ equal => equal

theorem SameData.applyAll (ops : List (FileOp Name)) : SameData (first.applyAll ops) (second.applyAll ops) := by
  induction ops generalizing first second with
  | nil => exact same
  | cons op ops ih => exact ih (same.apply op)

end

/-- A disk can take the listed files from one disk and every other file from another one. -/
theorem exists_mixed (names : List Name) (first second : Disk Name) :
    ∃ mixed : Disk Name, (∀ name ∈ names, mixed.lookup name = first.lookup name) ∧
      ∀ name, name ∉ names → mixed.lookup name = second.lookup name := by
  induction names with
  | nil => exact ⟨second, by simp, fun _ _ => rfl⟩
  | cons head names ih =>
    obtain ⟨mixed, inside, outside⟩ := ih
    obtain ⟨changed, replaced, kept⟩ : ∃ changed : Disk Name, changed.lookup head = first.lookup head ∧
        ∀ name, name ≠ head → changed.lookup name = mixed.lookup name := by
      cases found : first.lookup head with
      | none => exact ⟨mixed.erase head, AList.lookup_erase _ _, fun name other => AList.lookup_erase_ne other⟩
      | some content =>
        exact ⟨mixed.insert head content, AList.lookup_insert _, fun name other => AList.lookup_insert_ne other⟩
    refine ⟨changed, ?_, ?_⟩
    · intro name member
      by_cases same : name = head
      · rw [same, replaced]
      · rw [kept name same]
        exact inside name ((List.mem_cons.mp member).resolve_left same)
    · intro name absent
      have other : name ≠ head := fun same => absent (same ▸ List.mem_cons_self)
      rw [kept name other]
      exact outside name fun member => absent (List.mem_cons_of_mem _ member)

/-- What survives a crash agrees with what would have survived on the other disk. -/
theorem AgreeOff.survives {names : List Name} {image clean left : Disk Name}
    (agree : AgreeOff (· ∈ names) image clean) (survives : Survives image left) :
    ∃ kept, Survives clean kept ∧ AgreeOff (· ∈ names) left kept := by
  obtain ⟨kept, inside, outside⟩ := exists_mixed names clean left
  refine ⟨kept, ?_, fun name shown => (outside name shown).symm⟩
  intro name
  by_cases member : name ∈ names
  · rw [inside name member]
    exact Survives.refl clean name
  · rw [outside name member, ← agree name member]
    exact survives name

end

namespace Program
variable {Name ε α β : Type} [DecidableEq Name] {hidden : Name → Prop} {first second : Disk Name}
variable {program : Program Name ε α} {query : Disk Name → Except ε α} {next : α → Program Name ε β}

/-- The program returns the same result with the same operations on both disks, and they agree afterwards. -/
structure Alike (hidden : Name → Prop) (program : Program Name ε α) (first second : Disk Name) : Prop where
  same : program.run first = program.run second
  agree : AgreeOff hidden (first.applyAll (program.run second).2) (second.applyAll (program.run second).2)

theorem Alike.of_run {result : Except ε α} {ops : List (FileOp Name)} (agree : AgreeOff hidden first second)
    (ran : program.run first = (result, ops)) (again : program.run second = (result, ops))
    (keeps : ∀ op ∈ ops, op.KeepsHidden hidden) : Alike hidden program first second := by
  refine ⟨ran.trans again.symm, ?_⟩
  rw [again]
  exact agree.applyAll keeps

/-- A program that runs like another one on both disks takes over what holds of it. -/
theorem Alike.congr {other : Program Name ε α} (alike : Alike hidden other first second)
    (before : program.run first = other.run first) (again : program.run second = other.run second) :
    Alike hidden program first second := by
  refine ⟨before.trans (alike.same.trans again.symm), ?_⟩
  rw [again]
  exact alike.agree

section
variable (agree : AgreeOff hidden first second)
include agree

theorem Alike.pure (value : α) :
    Alike hidden (Pure.pure value : Program Name ε α) first second := ⟨rfl, agree⟩

theorem Alike.fail (failure : ε) :
    Alike hidden (Program.fail failure : Program Name ε α) first second := ⟨rfl, agree⟩

theorem Alike.ofExcept (result : Except ε α) :
    Alike hidden (Program.ofExcept result : Program Name ε α) first second := ⟨rfl, agree⟩

theorem Alike.observe (same : query first = query second) : Alike hidden (Program.observe query) first second :=
  ⟨by rw [observe_run, observe_run, same], agree⟩

theorem Alike.perform {op : FileOp Name} (keeps : op.KeepsHidden hidden) :
    Alike hidden (Program.perform op : Program Name ε Unit) first second := ⟨rfl, agree.apply keeps⟩

end

theorem Alike.mapError {δ : Type} (alike : Alike hidden program first second) (describe : ε → δ) :
    Alike hidden (Program.mapError describe program) first second := by
  refine ⟨?_, alike.agree⟩
  simp only [Program.mapError, alike.same]

/-- A sequence runs alike when its second part does on the disks that the first part leaves. -/
theorem Alike.bind (alike : Alike hidden program first second)
    (rest : ∀ value ops, program.run second = (.ok value, ops) →
      AgreeOff hidden (first.applyAll ops) (second.applyAll ops) →
      Alike hidden (next value) (first.applyAll ops) (second.applyAll ops)) :
    Alike hidden (program >>= next) first second := by
  have agree := alike.agree
  cases outcome : program.run second with
  | mk answer ops =>
    have before := alike.same.trans outcome
    rw [outcome] at agree
    cases answer with
    | error failure =>
      refine ⟨by rw [bind_error before, bind_error outcome], ?_⟩
      rw [bind_error outcome]
      exact agree
    | ok value =>
      have later := rest value ops outcome agree
      refine ⟨by rw [bind_ok before, bind_ok outcome, later.same], ?_⟩
      rw [bind_ok outcome, applyAll_append, applyAll_append]
      exact later.agree

/-- The program only looks at the disks, and it sees no difference between them. -/
structure Quiet (program : Program Name ε α) (first second : Disk Name) : Prop where
  same : program.run first = program.run second
  still : (program.run second).2 = []

theorem Quiet.pure (value : α) : Quiet (Pure.pure value : Program Name ε α) first second := ⟨rfl, rfl⟩

omit [DecidableEq Name] in
theorem Quiet.observe (same : query first = query second) : Quiet (Program.observe query) first second :=
  ⟨by rw [observe_run, observe_run, same], rfl⟩

theorem Quiet.bind (before : Quiet program first second) (rest : ∀ value, Quiet (next value) first second) :
    Quiet (program >>= next) first second := by
  obtain ⟨same, still⟩ := before
  cases outcome : program.run second with
  | mk answer ops =>
    rw [outcome] at same still
    cases still
    cases answer with
    | error failure => exact ⟨by rw [bind_error same, bind_error outcome], by rw [bind_error outcome]⟩
    | ok value =>
      obtain ⟨later, quiet⟩ := rest value
      refine ⟨?_, ?_⟩
      · rw [bind_ok same, bind_ok outcome, applyAll_nil, applyAll_nil, later]
      · rw [bind_ok outcome, applyAll_nil]
        exact quiet

/-- The program sees of the files no more than their bytes. -/
def ByData (program : Program Name ε α) : Prop :=
  ∀ first second, SameData first second → program.run first = program.run second

theorem byData_pure (value : α) : ByData (Pure.pure value : Program Name ε α) := fun _ _ _ => rfl

theorem byData_fail (failure : ε) : ByData (Program.fail failure : Program Name ε α) := fun _ _ _ => rfl

theorem byData_perform (op : FileOp Name) : ByData (Program.perform op : Program Name ε Unit) := fun _ _ _ => rfl

theorem byData_ofExcept (result : Except ε α) : ByData (Program.ofExcept result : Program Name ε α) :=
  fun _ _ _ => rfl

theorem byData_observe (same : ∀ first second, SameData first second → query first = query second) :
    ByData (Program.observe query) :=
  fun first second equal => congrArg (·, []) (same first second equal)

/-- A sequence of such programs is one of them. -/
theorem ByData.bind (before : ByData program) (rest : ∀ value, ByData (next value)) : ByData (program >>= next) := by
  intro first second same
  have equal := before first second same
  cases outcome : program.run second with
  | mk answer ops =>
    rw [outcome] at equal
    cases answer with
    | error failure => rw [bind_error equal, bind_error outcome]
    | ok value => rw [bind_ok equal, bind_ok outcome, rest value _ _ (same.applyAll ops)]

end Program

end Foundation.FileStore
